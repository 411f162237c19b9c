import Mathlib.Data.List.Basic

/-!
# Doubly linked lists

A doubly linked list is given by two functions, the successor and the predecessor of a
node.  `Linked next prev p l n` says that the nodes of `l` are linked one after another,
that the first has `p` before it and the last `n` after it.  A change of the links at one
end of a list gives the list another neighbour there.

## Main results

* `linked_append` — a list is linked when its two parts are linked to each other.
* `Linked.congr` — only the links of the nodes matter.
* `Linked.relinkRight`, `Linked.relinkLeft` — another neighbour at the end, at the start.
-/

/-- The nodes of `l` are linked, between `p` and `n`. -/
def Linked {ι : Type*} (next prev : ι → ι) : ι → List ι → ι → Prop
  | _, [], _ => True
  | p, i :: is, n => next i = is.headD n ∧ prev i = p ∧ Linked next prev i is n

section Linked

variable {ι : Type*} {next prev next' prev' : ι → ι} {p q n m : ι} {l l₁ l₂ : List ι}

theorem headD_append (l₁ l₂ : List ι) (n : ι) : (l₁ ++ l₂).headD n = l₁.headD (l₂.headD n) := by
  cases l₁ <;> rfl

/-- **A list is linked when its parts are**, each with the other as its neighbour. -/
theorem linked_append : ∀ {l₁ : List ι} {p : ι}, Linked next prev p (l₁ ++ l₂) n ↔
    Linked next prev p l₁ (l₂.headD n) ∧ Linked next prev (l₁.getLastD p) l₂ n := by
  intro l₁
  induction l₁ with
  | nil =>
    intro p
    simp only [List.nil_append, Linked, true_and, List.getLastD_nil]
  | cons i is ih =>
    intro p
    simp only [List.cons_append, Linked, ih, headD_append, List.getLastD_cons, and_assoc]

/-- Only the links of the nodes of a list matter. -/
theorem Linked.congr : ∀ {l : List ι} {p : ι}, Linked next prev p l n →
    (∀ i ∈ l, next' i = next i) → (∀ i ∈ l, prev' i = prev i) → Linked next' prev' p l n := by
  intro l
  induction l with
  | nil => exact fun _ _ _ => trivial
  | cons i is ih =>
    intro p h hnext hprev
    obtain ⟨h1, h2, h3⟩ := h
    refine ⟨(hnext i List.mem_cons_self).trans h1, (hprev i List.mem_cons_self).trans h2, ?_⟩
    exact ih h3 (fun j hj => hnext j (List.mem_cons_of_mem _ hj))
      fun j hj => hprev j (List.mem_cons_of_mem _ hj)

/-- **Another neighbour at the end**: only the successor of the last node changes. -/
theorem Linked.relinkRight (h : Linked next prev p l n)
    (hnext : ∀ i ∈ l, i ≠ l.getLastD p → next' i = next i)
    (hlast : l ≠ [] → next' (l.getLastD p) = m) (hprev : ∀ i ∈ l, prev' i = prev i)
    (hnodup : l.Nodup) : Linked next' prev' p l m := by
  rcases List.eq_nil_or_concat l with rfl | ⟨is, i, rfl⟩
  · trivial
  rw [List.concat_eq_append] at *
  have hi : (is ++ [i]).getLastD p = i := by rw [List.getLastD_concat]
  rw [hi] at hnext hlast
  rw [linked_append] at h ⊢
  obtain ⟨h1, h2, h3, -⟩ := h
  have hne : ∀ j ∈ is, j ≠ i := by
    intro j hj hji
    have := (List.nodup_append.mp hnodup).2.2 j hj i (List.mem_singleton_self i)
    exact this hji
  refine ⟨h1.congr (fun j hj => hnext j (List.mem_append_left _ hj) (hne j hj))
    fun j hj => hprev j (List.mem_append_left _ hj), hlast (by simp), ?_, trivial⟩
  exact (hprev i (by simp)).trans h3

/-- **Another neighbour at the start**: only the predecessor of the first node changes. -/
theorem Linked.relinkLeft (h : Linked next prev p l n) (hnext : ∀ i ∈ l, next' i = next i)
    (hhead : l ≠ [] → prev' (l.headD q) = q) (hprev : ∀ i ∈ l.tail, prev' i = prev i) :
    Linked next' prev' q l n := by
  cases l with
  | nil => trivial
  | cons i is =>
    obtain ⟨h1, -, h3⟩ := h
    refine ⟨(hnext i List.mem_cons_self).trans h1, hhead (List.cons_ne_nil _ _), ?_⟩
    exact h3.congr (fun j hj => hnext j (List.mem_cons_of_mem _ hj)) hprev

end Linked

import Mathlib.Data.List.Basic

/-!
# Channels that lose, duplicate and reorder

A channel is the list of the packets in flight, oldest first.  A delivery names the packet
that arrives.  In a channel that keeps the order the packets before it are lost, and the
packet itself stays in flight, since it may be duplicated; in one that does not, all packets
stay in flight for ever.

## Main definitions

* `deliver` — the packet that arrives, and the channel after that.

## Main results

* `mem_of_deliver`, `subset_of_deliver` — nothing arrives that was not sent.
* `le_of_deliver` — in order, what is still in flight is not older than what arrived.
-/

namespace Channel

variable {α : Type*}

/-- The packet at `i` arrives. -/
def deliver (fifo : Bool) (net : List α) (i : ℕ) : Option (α × List α) :=
  net[i]?.map fun x => (x, if fifo then net.drop i else net)

variable {fifo : Bool} {net net' : List α} {i : ℕ} {x : α}

theorem deliver_eq_some (h : deliver fifo net i = some (x, net')) :
    net[i]? = some x ∧ net' = if fifo then net.drop i else net := by
  unfold deliver at h
  obtain ⟨y, hy, heq⟩ := Option.map_eq_some_iff.mp h
  rw [Prod.mk.injEq] at heq
  exact ⟨by rw [hy, heq.1], heq.2.symm⟩

theorem mem_of_deliver (h : deliver fifo net i = some (x, net')) : x ∈ net :=
  List.mem_of_getElem? (deliver_eq_some h).1

theorem subset_of_deliver (h : deliver fifo net i = some (x, net')) : ∀ y ∈ net', y ∈ net := by
  intro y hy
  rw [(deliver_eq_some h).2] at hy
  split_ifs at hy
  · exact List.mem_of_mem_drop hy
  · exact hy

/-- In order, what is still in flight keeps its order and is behind what arrived. -/
theorem pairwise_of_deliver {R : α → α → Prop} (h : deliver true net i = some (x, net'))
    (hsorted : net.Pairwise R) : net'.Pairwise R ∧ ∀ y ∈ net', y = x ∨ R x y := by
  obtain ⟨hx, rfl⟩ := deliver_eq_some h
  rw [if_pos rfl]
  have hdrop : (net.drop i).Pairwise R := hsorted.sublist (List.drop_sublist i net)
  refine ⟨hdrop, fun y hy => ?_⟩
  obtain ⟨hlt, hget⟩ := List.getElem?_eq_some_iff.mp hx
  rw [List.drop_eq_getElem_cons hlt, hget] at hdrop hy
  exact (List.mem_cons.mp hy).imp_right ((List.pairwise_cons.mp hdrop).1 y)

/-- In order, nothing older than the packet arrives after it. -/
theorem le_of_deliver {f : α → ℕ} (h : deliver true net i = some (x, net'))
    (hsorted : net.Pairwise fun y z => f y ≤ f z) :
    (net'.Pairwise fun y z => f y ≤ f z) ∧ ∀ y ∈ net', f x ≤ f y := by
  obtain ⟨hsorted', hle⟩ := pairwise_of_deliver h hsorted
  refine ⟨hsorted', fun y hy => ?_⟩
  rcases hle y hy with rfl | hle
  · exact Nat.le_refl _
  · exact hle

end Channel

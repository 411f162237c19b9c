import UBoot.Lib.Probing
import Mathlib.Data.List.TakeWhile

/-!
# The hash table of the environment

The table of `lib/hashtable.c`: open addressing with double hashing over the
slots `1..size`, slot `0` being allocated but never used.  The `used` field of
the source is `0` for a slot that was never used, `-1` for a deleted one and the
first hash value of the key otherwise; here that is the type `Slot`.

An entry of the source also has a callback and access flags.  The code outside
`hashtable.c` that a table operation calls, `change_ok`, the callbacks,
`env_callback_init` and `env_flags_init`, writes those two and nothing else of a
table.  They are kept in an array of their own, so that the type of a hook says
so.

## Main definitions

* `CStr` — a C string.
* `Htab`, `World`, `Hooks` — a table, the state its operations run in and the
  code they call.
* `hcreateR`, `hsearchR`, `hdeleteR` — the operations.
-/

namespace UBoot

/-- A NUL-terminated string: its bytes up to the terminator. -/
structure CStr where
  bytes : List UInt8
  nulFree : 0 ∉ bytes
  deriving DecidableEq

/-- The string without characters. -/
def CStr.empty : CStr := ⟨[], by simp⟩

/-- The string that starts at some bytes. -/
def CStr.ofBytes (bytes : List UInt8) : CStr :=
  ⟨bytes.takeWhile (· ≠ 0), fun h => by simpa using List.mem_takeWhile_imp h⟩

theorem CStr.ofBytes_bytes (s : CStr) : CStr.ofBytes s.bytes = s := by
  obtain ⟨bytes, hnul⟩ := s
  simp only [CStr.ofBytes, mk.injEq, List.takeWhile_eq_self_iff, decide_eq_true_eq]
  exact fun c hc h => hnul (h ▸ hc)

/-- A string ends at the first NUL. -/
theorem CStr.ofBytes_append_zero (bytes behind : List UInt8) :
    CStr.ofBytes (bytes ++ 0 :: behind) = CStr.ofBytes bytes := by
  simp only [CStr.ofBytes, mk.injEq]
  rw [List.takeWhile_append]
  split_ifs with hall
  · rw [List.takeWhile_cons_of_neg (by decide), List.append_nil]
    exact ((List.takeWhile_prefix _).eq_of_length hall).symm
  · rfl

/-- `enum env_op` -/
inductive EnvOp
  | create
  | delete
  | overwrite
  deriving DecidableEq

namespace Hashtable

open OpenAddressing

/-! ### Tables -/

/-- A slot in use: its first hash value and the copies of key and data.  A copy
is missing when `strdup` failed. -/
structure Item where
  used : ℕ
  key : Option CStr
  data : Option CStr
  deriving DecidableEq

/-- The callback and the access flags of an entry. -/
structure Attr (κ : Type) where
  callback : Option κ
  flags : ℕ
  deriving DecidableEq

/-- `struct hsearch_data`; `change_ok` is one of the `Hooks`. -/
structure Htab (κ : Type) where
  size : ℕ
  filled : ℕ
  table : ℕ → Slot Item
  attr : ℕ → Attr κ

/-- A table and whatever static data the code around it has. -/
structure World (κ σ : Type) where
  htab : Htab κ
  statics : σ

/-- The code that the table operations call. -/
structure Hooks (κ σ : Type) where
  /-- `env_callback_init`: the callback of the entry in a slot. -/
  callbackInit : World κ σ → ℕ → Option κ × σ
  /-- `env_flags_init`: the flags of the entry in a slot. -/
  flagsInit : World κ σ → ℕ → ℕ × σ
  /-- `change_ok`, which returns `true` for a denial. -/
  changeOk : Option (World κ σ → ℕ → Option CStr → EnvOp → ℕ → Bool)
  /-- A callback returns `true` to reject the change. -/
  callback : κ → World κ σ → CStr → Option CStr → EnvOp → ℕ → Bool × (ℕ → Attr κ) × σ

variable {κ σ : Type}

/-- The key stored in a slot. -/
def Htab.keyAt (htab : Htab κ) (idx : ℕ) : Option CStr :=
  match htab.table idx with
  | .live e => e.key
  | _ => none

/-- The data stored in a slot. -/
def Htab.dataAt (htab : Htab κ) (idx : ℕ) : Option CStr :=
  match htab.table idx with
  | .live e => e.data
  | _ => none

/-! ### `hcreate_r` -/

/-- The loop of `isprime`.  For an odd number the divisor stops at the number
itself at the latest. -/
def isprimeLoop (number : ℕ) : ℕ → ℕ → Bool
  | 0, _ => false
  | fuel + 1, div =>
    if div * div % 2 ^ 32 < number ∧ number % div ≠ 0 then
      isprimeLoop number fuel (div + 2)
    else
      number % div != 0

def isprime (number : ℕ) : Bool :=
  isprimeLoop number number 3

/-- The loop of `hcreate_r`, from an odd number on. -/
def nextPrime : ℕ → ℕ → Option ℕ
  | 0, _ => none
  | fuel + 1, nel => if isprime (nel % 2 ^ 32) then some nel else nextPrime fuel (nel + 2)

/-- The zeroed table that `calloc` returns. -/
def emptyTable (size : ℕ) : Htab κ where
  size := size
  filled := 0
  table _ := .unused
  attr _ := ⟨none, 0⟩

/-- A new table for `nel` entries.  `calloc` is taken to fail for a table of
`2 ^ 31` entries or more. -/
def hcreateR (nel : ℕ) : Option (Htab κ) :=
  match nextPrime (nel + 3) (nel ||| 1) with
  | none => none
  | some nel =>
    if nel % 2 ^ 32 < 2 ^ 31 then some (emptyTable (nel % 2 ^ 32)) else none

/-! ### The search -/

/-- The value computed for a key, last character first. -/
def hash (key : CStr) : ℕ :=
  key.bytes.foldr (fun c hval => (hval * 16 + c.toNat) % 2 ^ 32) (key.bytes.length % 2 ^ 32)

/-- The first hash function, `hval`. -/
def firstIdx (size : ℕ) (key : CStr) : ℕ :=
  if hash key % size = 0 then 1 else hash key % size

/-- The second hash function, `hval2`; `size - 2` is unsigned. -/
def stride (size hval : ℕ) : ℕ :=
  1 + hval % ((size + (2 ^ 32 - 2)) % 2 ^ 32)

/-- The comparison of `_compare_and_overwrite_entry`.  A missing key is no
string at all and compares unequal. -/
def compareEntry (htab : Htab κ) (key : CStr) (hval idx : ℕ) : Bool :=
  match htab.table idx with
  | .live e => e.used == hval && e.key == some key
  | _ => false

/-- How a search ends: at an entry for the key, or without one. -/
inductive Probe
  | found (idx : ℕ)
  | free (idx : ℕ)
  deriving DecidableEq

/-- The loop of `hsearch_r` after the first slot. -/
def probeLoop (htab : Htab κ) (key : CStr) (hval hval2 : ℕ) : ℕ → ℕ → Probe
  | 0, idx => .free idx
  | fuel + 1, idx =>
    let idx := stepBack htab.size hval2 idx
    if idx = hval then .free idx
    else if compareEntry htab key hval idx then .found idx
    else if htab.table idx = .unused then .free idx
    else probeLoop htab key hval hval2 fuel idx

/-- The search of `hsearch_r`; its loop is back at the first slot after `size`
steps at the latest. -/
def probe (htab : Htab κ) (key : CStr) : Probe :=
  let hval := firstIdx htab.size key
  if htab.table hval = .unused then .free hval
  else if compareEntry htab key hval hval then .found hval
  else probeLoop htab key hval (stride htab.size hval) htab.size hval

/-- The slot a new entry goes to: `first_deleted` if that is set, which only the
first slot does. -/
def newIdx (htab : Htab κ) (key : CStr) (idx : ℕ) : ℕ :=
  if htab.table (firstIdx htab.size key) = .deleted then firstIdx htab.size key else idx

/-- The data that a search for a key finds. -/
def Htab.value (htab : Htab κ) (key : CStr) : Option CStr :=
  match probe htab key with
  | .found idx => htab.dataAt idx
  | .free _ => none

/-! ### `hsearch_r` and `hdelete_r` -/

inductive Errno
  | eperm
  | einval
  | enomem
  | esrch
  deriving DecidableEq

/-- The return value of an operation, the entry it passes back and the error it
sets. -/
structure Ret where
  ret : ℕ
  retval : Option ℕ
  errno : Option Errno
  deriving DecidableEq

def Ret.fail (e : Errno) : Ret := ⟨0, none, some e⟩

/-- `FIND`, or `ENTER` with the data. -/
inductive Action
  | find
  | enter (data : CStr)

/-- Whether the two calls of `strdup` succeed. -/
structure Dup where
  key : Bool
  data : Bool
  deriving DecidableEq

/-- `++n` for an `unsigned int` -/
def incr (n : ℕ) : ℕ := if n = 2 ^ 32 - 1 then 0 else n + 1

/-- `--n` for an `unsigned int` -/
def decr (n : ℕ) : ℕ := if n = 0 then 2 ^ 32 - 1 else n - 1

namespace World

def setSlot (w : World κ σ) (idx : ℕ) (s : Slot Item) : World κ σ :=
  { w with htab := { w.htab with table := Function.update w.htab.table idx s } }

def setAttr (w : World κ σ) (idx : ℕ) (a : Attr κ) : World κ σ :=
  { w with htab := { w.htab with attr := Function.update w.htab.attr idx a } }

def setFilled (w : World κ σ) (filled : ℕ) : World κ σ :=
  { w with htab := { w.htab with filled := filled } }

end World

namespace Hooks

/-- The call of `change_ok`: `true` for a denial. -/
def denies (hk : Hooks κ σ) (w : World κ σ) (idx : ℕ) (newval : Option CStr) (op : EnvOp)
    (flag : ℕ) : Bool :=
  match hk.changeOk with
  | none => false
  | some changeOk => changeOk w idx newval op flag

/-- The call of the entry's callback, if it has one. -/
def runCallback (hk : Hooks κ σ) (w : World κ σ) (idx : ℕ) (name : CStr) (value : Option CStr)
    (op : EnvOp) (flag : ℕ) : Bool × World κ σ :=
  match (w.htab.attr idx).callback with
  | none => (false, w)
  | some c =>
    let (rejected, attr, statics) := hk.callback c w name value op flag
    (rejected, ⟨{ w.htab with attr := attr }, statics⟩)

/-- `env_callback_init` and then `env_flags_init` on a new entry. -/
def initEntry (hk : Hooks κ σ) (w : World κ σ) (idx : ℕ) : World κ σ :=
  let (callback, statics) := hk.callbackInit w idx
  let w := { w.setAttr idx ⟨callback, (w.htab.attr idx).flags⟩ with statics := statics }
  let (flags, statics) := hk.flagsInit w idx
  { w.setAttr idx ⟨(w.htab.attr idx).callback, flags⟩ with statics := statics }

end Hooks

/-- `_hdelete` -/
def hdeleteAt (w : World κ σ) (idx : ℕ) : World κ σ :=
  ((w.setAttr idx ⟨none, 0⟩).setSlot idx .deleted).setFilled (decr w.htab.filled)

/-- The overwriting part of `_compare_and_overwrite_entry`. -/
def overwriteEntry (hk : Hooks κ σ) (w : World κ σ) (key data : CStr) (flag : ℕ) (dup : Dup)
    (idx : ℕ) : Ret × World κ σ :=
  if hk.denies w idx (some data) .overwrite flag then (.fail .eperm, w)
  else
    match hk.runCallback w idx key (some data) .overwrite flag with
    | (true, w) => (.fail .einval, w)
    | (false, w) =>
      let item : Item :=
        ⟨firstIdx w.htab.size key, w.htab.keyAt idx, if dup.data then some data else none⟩
      if dup.data then (⟨idx, some idx, none⟩, w.setSlot idx (.live item))
      else (.fail .enomem, w.setSlot idx (.live item))

/-- The part of `hsearch_r` that creates an entry. -/
def createEntry (hk : Hooks κ σ) (w : World κ σ) (key data : CStr) (flag : ℕ) (dup : Dup)
    (idx : ℕ) : Ret × World κ σ :=
  let item : Item :=
    ⟨firstIdx w.htab.size key, if dup.key then some key else none,
      if dup.data then some data else none⟩
  let w := w.setSlot idx (.live item)
  if dup.key && dup.data then
    let w := hk.initEntry (w.setFilled (incr w.htab.filled)) idx
    if hk.denies w idx (some data) .create flag then (.fail .eperm, hdeleteAt w idx)
    else
      match hk.runCallback w idx key (some data) .create flag with
      | (true, w) => (.fail .einval, hdeleteAt w idx)
      | (false, w) => (⟨1, some idx, none⟩, w)
  else
    -- the slot stays in use, and `filled` does not count it
    (.fail .enomem, w)

def hsearchR (hk : Hooks κ σ) (w : World κ σ) (key : CStr) (action : Action) (flag : ℕ)
    (dup : Dup) : Ret × World κ σ :=
  match probe w.htab key, action with
  | .found idx, .find => (⟨idx, some idx, none⟩, w)
  | .found idx, .enter data => overwriteEntry hk w key data flag dup idx
  | .free _, .find => (.fail .esrch, w)
  | .free idx, .enter data =>
    if w.htab.filled = w.htab.size then (.fail .enomem, w)
    else createEntry hk w key data flag dup (newIdx w.htab key idx)

def hdeleteR (hk : Hooks κ σ) (w : World κ σ) (key : CStr) (flag : ℕ) : Ret × World κ σ :=
  match probe w.htab key with
  | .free _ => (.fail .esrch, w)
  | .found idx =>
    if hk.denies w idx none .delete flag then (.fail .eperm, w)
    else
      match hk.runCallback w idx key none .delete flag with
      | (true, w) => (.fail .einval, w)
      | (false, w) => (⟨1, none, none⟩, hdeleteAt w idx)

end Hashtable

end UBoot

import UBoot.Hashtable.Basic

/-!
# Attribute lists

`.flags` and `.callbacks` hold lists of entries `name:attributes`, separated by
commas.  `env/attr.c` reads them in two ways: `env_attr_walk` goes through the
entries one by one, and `env_attr_lookup` searches the text for a name, from the
back in effect, since the last match counts.  The functions are those of a build
without `CONFIG_REGEX`.

## Main definitions

* `envAttrWalk` — the entries in order.
* `envAttrLookup` — the attributes of a name.
* `assigned` — what the entries say about a name.
-/

namespace UBoot.Env

/-! ### Walking the list -/

/-- `isspace`, by the table `_ctype` -/
def isspace (c : UInt8) : Bool :=
  (9 ≤ c && c ≤ 13) || c = 32 || c = 160

def strim (s : List UInt8) : List UInt8 :=
  ((s.dropWhile isspace).reverse.dropWhile isspace).reverse

/-- One entry: the name, and the attributes if there is a `:`.  Entries without a
name are passed over. -/
def attrEntry (entry : List UInt8) : Option (CStr × Option CStr) :=
  let attributes :=
    if 58 ∈ entry then some (CStr.ofBytes (strim (entry.dropWhile (· ≠ 58)).tail)) else none
  let name := strim (entry.takeWhile (· ≠ 58))
  if name = [] then none else some (CStr.ofBytes name, attributes)

/-- The entries that `env_attr_walk` calls back for. -/
def envAttrWalk (attrList : CStr) : List (CStr × Option CStr) :=
  (attrList.bytes.splitOn 44).filterMap attrEntry

/-- What a list of entries assigns to a name: the attributes of its last entry for
the name. -/
def assigned : List (CStr × Option CStr) → CStr → Option (List UInt8)
  | [], _ => none
  | (key, attributes) :: entries, name =>
    (assigned entries name).or
      (if key = name then some ((attributes.map CStr.bytes).getD []) else none)

/-! ### Searching the list -/

def skipSpaces (s : List UInt8) : List UInt8 :=
  s.dropWhile (· = 32)

/-- The loop of `reverse_name_search`: `before` is the text before the current
position, backwards.  The result is the text from the last exact match on. -/
def reverseNameSearch (searchFor : List UInt8) : List UInt8 → List UInt8 → Option (List UInt8)
  | _, [] => none
  | before, c :: cs =>
    let prev := skipSpaces before
    let next := skipSpaces ((c :: cs).drop searchFor.length)
    let here :=
      searchFor.isPrefixOf (c :: cs) && (prev.headD 44 == 44) &&
        (next.headD 0 == 58 || next.headD 0 == 44 || next.headD 0 == 0)
    (reverseNameSearch searchFor (c :: before) cs).or (if here then some (c :: cs) else none)

/-- `env_attr_lookup`; `none` if there is no list or it does not have the name. -/
def envAttrLookup (attrList : Option CStr) (name : CStr) : Option (List UInt8) :=
  match attrList with
  | none => none
  | some attrList =>
    if name.bytes = [] then some []
    else
      match reverseNameSearch name.bytes [] attrList.bytes with
      | none => none
      | some entry =>
        let entry := skipSpaces (entry.drop name.bytes.length)
        if entry.headD 0 ≠ 58 then some []
        else some ((skipSpaces entry.tail).takeWhile fun c => c ≠ 44 ∧ c ≠ 32)

end UBoot.Env

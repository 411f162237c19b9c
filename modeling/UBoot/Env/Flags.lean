import UBoot.Env.Attr
import UBoot.Hashtable.Import

/-!
# Access flags and callbacks of the environment

Two special variables control the others.  `.flags` gives variables a type and an
access mode, `.callbacks` binds functions to them.  Both act twice: when the
variable is assigned, its own callback (`on_flags`, `on_callbacks`) rewrites all
entries of the table, and when another variable is created, `env_flags_init` and
`env_callback_init` look the new name up.  The lookup uses a pointer to the list
that was fetched on the first call; here the text it pointed to then, although
assigning the variable frees it, and the buffers for what is found are long enough.

## Main definitions

* `Config` — what depends on the configuration and on code outside.
* `envParseFlagsToBin`, `envFlagsValidate` — the flags of an entry and their check.
* `envFlagsInit`, `onFlags`, `envCallbackInit`, `onCallbacks` — the two ways in which
  the two variables act.
* `hooks` — all of it, as `hsearch_r` and `hdelete_r` on `env_htab` call it.

## Main results

* `himportR_hexportR_denied` — a value that is in the table is refused on import.
-/

namespace UBoot.Env

open OpenAddressing Hashtable Machine

/-! ### Configuration -/

/-- A function bound to a variable. -/
inductive Callback
  | callbacks
  | flags
  /-- One of the other functions declared with `U_BOOT_ENV_CALLBACK`. -/
  | other (name : CStr)
  deriving DecidableEq

structure Config where
  /-- `CONFIG_CMD_NET` -/
  cmdNet : Bool
  /-- `CONFIG_ENV_ACCESS_IGNORE_FORCE` -/
  ignoreForce : Bool
  /-- `ENV_FLAGS_LIST_STATIC` -/
  flagsListStatic : CStr
  /-- `ENV_CALLBACK_LIST_STATIC` -/
  callbackListStatic : CStr
  /-- The other functions, and whether they reject a change.  They do not write to
  the table. -/
  otherCallbacks : List CStr
  reject : CStr → CStr → Option CStr → EnvOp → ℕ → Bool
  /-- The values of the built-in environment. -/
  envGetDefault : CStr → Option CStr
  /-- `env_get` before the environment is in the table. -/
  envGetF : CStr → Option CStr

/-- The static variables: the two lists, `none` before the first call, and whether
`GD_FLG_ENV_READY` is set. -/
structure Statics where
  flagsList : Option (Option CStr)
  callbackList : Option (Option CStr)
  ready : Bool
  deriving DecidableEq

/-- `ENV_FLAGS_VAR`, the string `.flags` -/
def flagsVar : CStr := ⟨[46, 102, 108, 97, 103, 115], by decide⟩

/-- `ENV_CALLBACK_VAR`, the string `.callbacks` -/
def callbackVar : CStr := ⟨[46, 99, 97, 108, 108, 98, 97, 99, 107, 115], by decide⟩

abbrev EnvHtab := Htab Callback

abbrev EnvWorld := World Callback Statics

def envGet (cfg : Config) (w : EnvWorld) (name : CStr) : Option CStr :=
  if w.statics.ready then w.htab.value name else cfg.envGetF name

/-! ### Flags -/

/-- `env_flags_vartype_rep`, the string `sdxbim` or `sdxb` -/
def vartypeRep (cfg : Config) : List UInt8 :=
  [115, 100, 120, 98] ++ if cfg.cmdNet then [105, 109] else []

/-- `env_flags_parse_vartype`; an unknown type is a string. -/
def envFlagsParseVartype (cfg : Config) (flags : List UInt8) : ℕ :=
  match flags with
  | [] => 0
  | c :: _ => ((vartypeRep cfg).findIdx? (· = c)).getD 0

/-- `env_flags_parse_varaccess` and `env_flags_varaccess_mask`; an unknown access is
any access. -/
def envFlagsVaraccessMask (flags : List UInt8) : ℕ :=
  match flags with
  | _ :: c :: _ =>
    if c = 114 then 0x38 else if c = 111 then 0x28 else if c = 99 then 0x48 else 0
  | _ => 0

def envParseFlagsToBin (cfg : Config) (flags : List UInt8) : ℕ :=
  (envFlagsParseVartype cfg flags &&& 7) ||| envFlagsVaraccessMask flags

def envFlagsLookup (cfg : Config) (flagsList : Option CStr) (name : CStr) : Option (List UInt8) :=
  (envAttrLookup flagsList name).or (envAttrLookup (some cfg.flagsListStatic) name)

/-- The list that the lookups use: fetched on the first call. -/
def cachedFlags (cfg : Config) (w : EnvWorld) : Option CStr :=
  w.statics.flagsList.getD (envGet cfg w flagsVar)

/-- `env_flags_init`: the flags of the entry in slot `idx`. -/
def envFlagsInit (cfg : Config) (w : EnvWorld) (idx : ℕ) : ℕ × Statics :=
  let statics := { w.statics with flagsList := some (cachedFlags cfg w) }
  match envFlagsLookup cfg (cachedFlags cfg w) ((w.htab.keyAt idx).getD CStr.empty) with
  | some (c :: flags) => (envParseFlagsToBin cfg (c :: flags), statics)
  | _ => ((w.htab.attr idx).flags, statics)

/-- `hwalk_r`: a change of the attributes of every entry. -/
def hwalkR (htab : EnvHtab) (f : Attr Callback → Attr Callback) (idx : ℕ) : Attr Callback :=
  if idx ∈ Finset.Icc 1 htab.size ∧ (htab.table idx).isLive then f (htab.attr idx)
  else htab.attr idx

/-- The attributes with those of one variable changed, if it exists. -/
def setAttrOf (htab : EnvHtab) (attr : ℕ → Attr Callback) (name : CStr)
    (f : Attr Callback → Attr Callback) : ℕ → Attr Callback :=
  match probe htab name with
  | .found idx => Function.update attr idx (f (attr idx))
  | .free _ => attr

def setFlags (cfg : Config) (htab : EnvHtab) (attr : ℕ → Attr Callback)
    (e : CStr × Option CStr) : ℕ → Attr Callback :=
  setAttrOf htab attr e.1 fun a =>
    { a with flags :=
        match e.2 with
        | none => 0
        | some value => if value.bytes = [] then 0 else envParseFlagsToBin cfg value.bytes }

def walkOption (attrList : Option CStr) : List (CStr × Option CStr) :=
  (attrList.map envAttrWalk).getD []

/-- `on_flags`, called with the new value of `.flags`. -/
def onFlags (cfg : Config) (htab : EnvHtab) (value : Option CStr) : ℕ → Attr Callback :=
  (envAttrWalk cfg.flagsListStatic ++ walkOption value).foldl (setFlags cfg htab)
    (hwalkR htab fun a => { a with flags := 0 })

/-! ### Callbacks -/

/-- `find_env_callback` -/
def findEnvCallback (cfg : Config) (name : List UInt8) : Option Callback :=
  if name = [99, 97, 108, 108, 98, 97, 99, 107, 115] then some .callbacks
  else if name = [102, 108, 97, 103, 115] then some .flags
  else (cfg.otherCallbacks.find? fun c => c.bytes = name).map .other

def cachedCallbacks (cfg : Config) (w : EnvWorld) : Option CStr :=
  w.statics.callbackList.getD (envGet cfg w callbackVar)

/-- `env_callback_init`: the callback of the entry in slot `idx`. -/
def envCallbackInit (cfg : Config) (w : EnvWorld) (idx : ℕ) : Option Callback × Statics :=
  let statics := { w.statics with callbackList := some (cachedCallbacks cfg w) }
  let name := (w.htab.keyAt idx).getD CStr.empty
  match (envAttrLookup (cachedCallbacks cfg w) name).or
      (envAttrLookup (some cfg.callbackListStatic) name) with
  | some (c :: callback) =>
    ((findEnvCallback cfg (c :: callback)).or (w.htab.attr idx).callback, statics)
  | _ => ((w.htab.attr idx).callback, statics)

def setCallback (cfg : Config) (htab : EnvHtab) (attr : ℕ → Attr Callback)
    (e : CStr × Option CStr) : ℕ → Attr Callback :=
  setAttrOf htab attr e.1 fun a =>
    { a with callback :=
        match e.2 with
        | none => none
        | some value =>
          if value.bytes = [] then none
          else (findEnvCallback cfg value.bytes).or a.callback }

/-- `on_callbacks`, called with the new value of `.callbacks`. -/
def onCallbacks (cfg : Config) (htab : EnvHtab) (value : Option CStr) : ℕ → Attr Callback :=
  (envAttrWalk cfg.callbackListStatic ++ walkOption value).foldl (setCallback cfg htab)
    (hwalkR htab fun a => { a with callback := none })

/-! ### Validation -/

def isdigit (c : UInt8) : Bool :=
  48 ≤ c && c ≤ 57

def isxdigit (c : UInt8) : Bool :=
  isdigit c || (65 ≤ c && c ≤ 70) || (97 ≤ c && c ≤ 102)

def isHexPrefix (value : List UInt8) : Bool :=
  value.headD 0 == 48 && (value.tail.headD 0 == 120 || value.tail.headD 0 == 88)

/-- The digits that `skip_num` passes over; `none` for no limit. -/
def skipDigits (hex : Bool) : Option ℕ → List UInt8 → List UInt8
  | _, [] => []
  | some 0, value => value
  | maxDigits, c :: cs =>
    if (if hex then isxdigit c else isdigit c) then skipDigits hex (maxDigits.map (· - 1)) cs
    else c :: cs

/-- `skip_num`: what follows the number. -/
def skipNum (hex : Bool) (value : List UInt8) (maxDigits : Option ℕ) : List UInt8 :=
  skipDigits hex maxDigits (if hex && isHexPrefix value then value.tail.tail else value)

/-- `eth_validate_ethaddr_str` from the `i`-th last byte of the address on. -/
def ethValidateEthaddrStr : ℕ → List UInt8 → Bool
  | 0, _ => true
  | i + 1, cur =>
    let rest := skipNum true cur (some 2)
    rest.length != cur.length && !(rest.length + 2 == cur.length && isHexPrefix cur) &&
      (if i = 0 then rest == [] else rest.headD 0 == 58 && ethValidateEthaddrStr i rest.tail)

/-- The check of an IP address, from the `i`-th last number on. -/
def validateIpaddr : ℕ → List UInt8 → Bool
  | 0, _ => true
  | i + 1, cur =>
    let rest := skipNum false cur (some 3)
    rest.length != cur.length &&
      (if i = 0 then rest == [] else rest.headD 0 == 46 && validateIpaddr i rest.tail)

/-- The first characters that `env_flags_vartype_bool` allows, `1ytYT0nfNF`. -/
def boolChars : List UInt8 := [49, 121, 116, 89, 84, 48, 110, 102, 78, 70]

/-- `_env_flags_validate_type`: the value has the form of the type. -/
def envFlagsValidateType (cfg : Config) (value : List UInt8) (type : ℕ) : Bool :=
  match type with
  | 1 => skipNum false value none == []
  | 2 =>
    let rest := skipNum true value none
    rest == [] && !(rest.length + 2 == value.length && isHexPrefix value)
  | 3 => boolChars.contains (value.headD 0) && value.tail == []
  -- without `CONFIG_CMD_NET` the value 4 is `env_flags_vartype_end`
  | 4 => cfg.cmdNet && validateIpaddr 4 value
  | 5 => !cfg.cmdNet || ethValidateEthaddrStr 6 value
  | 6 => !cfg.cmdNet
  | _ => true

def H_FORCE : ℕ := 2

/-- `env_flags_validate` on the entry in slot `idx`: `true` for a denial. -/
def envFlagsValidate (cfg : Config) (w : EnvWorld) (idx : ℕ) (newval : Option CStr) (op : EnvOp)
    (flag : ℕ) : Bool :=
  let flags := (w.htab.attr idx).flags
  if op ≠ .delete ∧
      envFlagsValidateType cfg ((newval.map CStr.bytes).getD []) (flags &&& 7) = false then true
  else if cfg.ignoreForce = false ∧ flag &&& H_FORCE ≠ 0 then false
  else
    match op with
    | .delete => flags &&& 0x08 != 0
    | .overwrite =>
      if flags &&& 0x20 ≠ 0 then true
      else if flags &&& 0x40 ≠ 0 then
        let name := (w.htab.keyAt idx).getD CStr.empty
        strcmp (((w.htab.dataAt idx).map CStr.bytes).getD [])
          (((cfg.envGetDefault name).map CStr.bytes).getD []) != 0
      else false
    | .create => flags &&& 0x10 != 0

/-! ### The hooks of `env_htab` -/

def hooks (cfg : Config) : Hooks Callback Statics where
  callbackInit := envCallbackInit cfg
  flagsInit := envFlagsInit cfg
  changeOk := some (envFlagsValidate cfg)
  callback c w name value op flag :=
    match c with
    | .flags => (false, onFlags cfg w.htab value, w.statics)
    | .callbacks => (false, onCallbacks cfg w.htab value, w.statics)
    | .other c => (cfg.reject c name value op flag, w.htab.attr, w.statics)

/-! ### A value that is refused on import -/

/-- The lists of a build without network support: `serial#` is write-once. -/
def serialConfig : Config where
  cmdNet := false
  ignoreForce := false
  flagsListStatic := ⟨[115, 101, 114, 105, 97, 108, 35, 58, 115, 111, 44], by decide⟩
  -- .callbacks:callbacks,.flags:flags,baudrate:baudrate,loadaddr:loadaddr,stdin:console,
  -- stdout:console,stderr:console,serial#:serialno,
  callbackListStatic :=
    ⟨[46, 99, 97, 108, 108, 98, 97, 99, 107, 115, 58, 99, 97, 108, 108, 98, 97, 99, 107,
       115, 44, 46, 102, 108, 97, 103, 115, 58, 102, 108, 97, 103, 115, 44, 98, 97, 117,
       100, 114, 97, 116, 101, 58, 98, 97, 117, 100, 114, 97, 116, 101, 44, 108, 111, 97,
       100, 97, 100, 100, 114, 58, 108, 111, 97, 100, 97, 100, 100, 114, 44, 115, 116, 100,
       105, 110, 58, 99, 111, 110, 115, 111, 108, 101, 44, 115, 116, 100, 111, 117, 116, 58,
       99, 111, 110, 115, 111, 108, 101, 44, 115, 116, 100, 101, 114, 114, 58, 99, 111, 110,
       115, 111, 108, 101, 44, 115, 101, 114, 105, 97, 108, 35, 58, 115, 101, 114, 105, 97,
       108, 110, 111, 44], by decide⟩
  otherCallbacks := []
  reject _ _ _ _ _ := false
  envGetDefault _ := none
  envGetF _ := none

/-- The environment is ready, and nothing has been fetched yet. -/
def fresh : Statics := ⟨none, none, true⟩

/-- The variable `foo`. -/
def foo : CStr := ⟨[102, 111, 111], by decide⟩

/-- The list `foo:do`: a decimal number that can be written once. -/
def fooList : CStr := ⟨[102, 111, 111, 58, 100, 111], by decide⟩

/-- The environment after `foo` was set to `x` and then declared a decimal number. -/
def declaredLate : EnvWorld :=
  run (opStep (hooks serialConfig)) ⟨emptyTable 5, fresh⟩
    [.enter foo (char 120) 0 ⟨true, true⟩, .enter flagsVar fooList 0 ⟨true, true⟩]

/-- Exporting that environment and importing the text into a new table loses `foo`:
`env_flags_validate` refuses the value. -/
theorem himportR_hexportR_denied :
    declaredLate.htab.value foo = some (char 120) ∧
      ∃ ex, hexportR none declaredLate.htab 10 0 32 [] true = some ex ∧
        ex.written.length ≤ ex.size ∧
        (himportR (hooks serialConfig) none fresh ex.buffer 10 0 false [] .ok).2.1.map
          (fun htab => htab.value foo) = some none :=
  ⟨by decide +kernel,
    ⟨32, flagsVar.bytes ++ 61 :: fooList.bytes ++ 10 :: foo.bytes ++ [61, 120, 10, 0]⟩,
    by decide +kernel⟩

end UBoot.Env

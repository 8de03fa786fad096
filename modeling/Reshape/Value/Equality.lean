import Reshape.Value.Basic

/-!
Equality and hashing of values.

Two values are equal here if they are built in the same way, down to the order of entries and the
kinds of numbers. `Value.alike` is the comparison that looks at what values mean.

* `Value.decEq`: decides equality.
* `Value.hash`: a hash that goes with it.
-/

namespace Reshape.Value

mutual

/-- Decides whether two values are equal. -/
def decEq : (a b : Value) → Decidable (a = b)
  | .null, .null => isTrue rfl
  | .boolean a, .boolean b => if h : a = b then isTrue (h ▸ rfl) else isFalse (by simp [h])
  | .number a, .number b => if h : a = b then isTrue (h ▸ rfl) else isFalse (by simp [h])
  | .string a, .string b => if h : a = b then isTrue (h ▸ rfl) else isFalse (by simp [h])
  | .array a, .array b =>
    match decEqItems a b with
    | isTrue h => isTrue (h ▸ rfl)
    | isFalse h => isFalse (by simp [h])
  | .object a, .object b =>
    match decEqEntries a b with
    | isTrue h => isTrue (h ▸ rfl)
    | isFalse h => isFalse (by simp [h])
  | .null, .boolean _ | .null, .number _ | .null, .string _ | .null, .array _ | .null, .object _
  | .boolean _, .null | .boolean _, .number _ | .boolean _, .string _ | .boolean _, .array _
  | .boolean _, .object _ | .number _, .null | .number _, .boolean _ | .number _, .string _
  | .number _, .array _ | .number _, .object _ | .string _, .null | .string _, .boolean _
  | .string _, .number _ | .string _, .array _ | .string _, .object _ | .array _, .null
  | .array _, .boolean _ | .array _, .number _ | .array _, .string _ | .array _, .object _
  | .object _, .null | .object _, .boolean _ | .object _, .number _ | .object _, .string _
  | .object _, .array _ => isFalse (by simp)

/-- Decides whether two lists of values are equal. -/
def decEqItems : (a b : List Value) → Decidable (a = b)
  | [], [] => isTrue rfl
  | [], _ :: _ => isFalse (by simp)
  | _ :: _, [] => isFalse (by simp)
  | a :: as, b :: bs =>
    match decEq a b, decEqItems as bs with
    | isTrue h, isTrue h' => isTrue (h ▸ h' ▸ rfl)
    | isFalse h, _ => isFalse (by simp [h])
    | _, isFalse h => isFalse (by simp [h])

/-- Decides whether two lists of entries are equal. -/
def decEqEntries : (a b : List (String × Value)) → Decidable (a = b)
  | [], [] => isTrue rfl
  | [], _ :: _ => isFalse (by simp)
  | _ :: _, [] => isFalse (by simp)
  | (k, a) :: as, (l, b) :: bs =>
    if hk : k = l then
      match decEq a b, decEqEntries as bs with
      | isTrue h, isTrue h' => isTrue (hk ▸ h ▸ h' ▸ rfl)
      | isFalse h, _ => isFalse (by simp [h])
      | _, isFalse h => isFalse (by simp [h])
    else isFalse (by simp [hk])

end

instance : DecidableEq Value :=
  decEq

mutual

/-- A hash of a value. -/
def hash : Value → UInt64
  | .null => 11
  | .boolean value => mixHash 13 (Hashable.hash value)
  | .number value => mixHash 17 (Hashable.hash value)
  | .string text => mixHash 19 (Hashable.hash text)
  | .array items => mixHash 23 (hashItems items)
  | .object entries => mixHash 29 (hashEntries entries)

/-- A hash of a list of values. -/
def hashItems : List Value → UInt64
  | [] => 7
  | item :: rest => mixHash (hash item) (hashItems rest)

/-- A hash of a list of entries. -/
def hashEntries : List (String × Value) → UInt64
  | [] => 7
  | (key, value) :: rest =>
    mixHash (mixHash (Hashable.hash key) (hash value)) (hashEntries rest)

end

instance : Hashable Value :=
  ⟨hash⟩

end Reshape.Value

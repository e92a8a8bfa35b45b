import ZkChat.Js.Json

set_option autoImplicit false

/-! # What the services call

`Libraries` is the code outside the repository whose results only pass through: the circuits and
their helpers, and the operators of MongoDB's filters. How Mongoose casts a request field is
written out, because the checks of a request depend on it: a filter is cast to the type of its
path before the collection is searched, the stages of an aggregation are not cast at all, and what
is stored is cast once more. -/

namespace ZkChat

structure Libraries where
  poseidon : List ℤ → ℤ
  /-- `RLN._genNullifier(epoch, rlnIdentifier)`. -/
  genNullifier : ℤ → ℤ → ℤ
  /-- `RLN.verifySNARKProof` with the server's key. -/
  verifySNARKProof : Option Json → Except Exn Bool
  /-- `RLN._shamirRecovery(x1, x2, y1, y2)`. -/
  shamirRecovery : ℤ → ℤ → ℤ → ℤ → Except Exn ℤ
  /-- The filter that an object of operators is on a string path. -/
  filterOperators : List (String × Json) → Except Exn (Option String → Bool)
  /-- The same object in a `$match` stage. -/
  matchOperators : List (String × Json) → Option String → Bool

namespace Mongoose

/-! ## Storing -/

/-- The cast to a string path; `none` on either side is `null` or `undefined`. An object is taken
    for a document with that `_id`. -/
def castString : Option Json → Except Exn (Option String)
  | none | some .null => .ok none
  | some (.bool b) => .ok (some (toString b))
  | some (.num x) => .ok (some (Js.numberToString x))
  | some (.str s) => .ok (some s)
  | some (.arr _) => .error .castError
  | some (.obj fields) => match fields.lookup "_id" with
    | some (.str s) => if s = "" then .error .castError else .ok (some s)
    | _ => .error .castError

/-- `String`: what a created document gets in that path. -/
def stringPath (v : Option Json) : Except Exn (Option String) :=
  (castString v).mapError fun _ => .validationError

/-- `{ type: String, required: true }`. -/
def requiredString (v : Option Json) : Except Exn String :=
  match castString v with
  | .ok (some s) => if s = "" then .error .validationError else .ok s
  | _ => .error .validationError

/-- `{ type: Number, required: true }`. -/
def requiredNumber : Option Json → Except Exn Js.Number
  | some (.bool b) => .ok (.finite (if b then 1 else 0))
  | some (.num x) => .ok x
  | some (.str s) =>
      if s = "" ∨ Js.stringToNumber s = .nan then .error .validationError
      else .ok (Js.stringToNumber s)
  | _ => .error .validationError

/-! ## Filtering -/

def isOperator (key : String) : Bool :=
  key.toList.head? = some '$' && key ∉ ["$ref", "$id", "$db"]

variable (lib : Libraries)

/-- A filter on a string path: a list stands for `$in`, and an object that has an operator may have
    nothing else. -/
def filter : Option Json → Except Exn (Option String → Bool)
  | some (.arr xs) => (xs.mapM fun x => castString (some x)).map fun texts stored => stored ∈ texts
  | some (.obj fields) =>
      if fields.any (isOperator ·.1) then
        match fields.reverse.find? (! isOperator ·.1) with
        | some (key, _) => .error (.error ("Can't use " ++ key ++ " with String."))
        | none => lib.filterOperators fields
      else (castString (some (.obj fields))).map fun text stored => stored = text
  | v => (castString v).map fun text stored => stored = text

/-- The same field in a `$match` stage, where only a string or `null` equals what is stored. -/
def matchField : Option Json → Option String → Bool
  | none, stored => stored = none
  | some .null, stored => stored = none
  | some (.str s), stored => stored = some s
  | some (.obj fields), stored => fields.any (isOperator ·.1) && lib.matchOperators fields stored
  | _, _ => false

variable {lib : Libraries}

/-- An object that can be stored and has an operator is refused: the `_id` that makes it storable is
    no operator. -/
theorem plain_of_filter_ok {fields : List (String × Json)} {text : Option String}
    {p : Option String → Bool} (hcast : castString (some (.obj fields)) = .ok text)
    (hfilter : filter lib (some (.obj fields)) = .ok p) : fields.any (isOperator ·.1) = false := by
  rw [filter] at hfilter
  split at hfilter
  · exfalso
    split at hfilter
    · cases hfilter
    · next hnone =>
        rw [castString] at hcast
        split at hcast
        · next t hid =>
            obtain ⟨l₁, l₂, rfl, -⟩ := List.lookup_eq_some_iff.mp hid
            have hplain : (!isOperator "_id") = true := by decide +kernel
            exact List.find?_eq_none.mp hnone ("_id", .str t) (by simp) hplain
        · cases hcast
  · next hnot => simpa using hnot

variable (lib) in
/-- A filter is built for a value that can be stored, unless the value has an operator. -/
theorem filter_ok_of_castString {v : Option Json} {text : Option String}
    (hcast : castString v = .ok text)
    (hplain : ∀ fields, v = some (.obj fields) → fields.any (isOperator ·.1) = false) :
    ∃ p, filter lib v = .ok p := by
  match v with
  | none => exact ⟨_, rfl⟩
  | some .null => exact ⟨_, rfl⟩
  | some (.bool _) => exact ⟨_, rfl⟩
  | some (.num _) => exact ⟨_, rfl⟩
  | some (.str _) => exact ⟨_, rfl⟩
  | some (.arr _) => cases hcast
  | some (.obj fields) =>
      rw [filter, hplain fields rfl, if_neg Bool.false_ne_true, hcast]
      exact ⟨_, rfl⟩

/-- A value that can be stored is found again by a filter with that value. -/
theorem filter_of_castString {v : Option Json} {text : Option String}
    {p : Option String → Bool} (hcast : castString v = .ok text) (hfilter : filter lib v = .ok p) :
    p text = true := by
  have plain : (castString v).map (fun text stored => decide (stored = text)) = .ok p →
      p text = true := by
    intro h
    rw [hcast] at h
    cases h
    exact decide_eq_true rfl
  match v with
  | none => exact plain hfilter
  | some .null => exact plain hfilter
  | some (.bool _) => exact plain hfilter
  | some (.num _) => exact plain hfilter
  | some (.str _) => exact plain hfilter
  | some (.arr _) => cases hcast
  | some (.obj fields) =>
      rw [filter, plain_of_filter_ok hcast hfilter, if_neg Bool.false_ne_true] at hfilter
      exact plain hfilter

end Mongoose

end ZkChat

import ZkChat.Js.Number

set_option autoImplicit false

/-! # JSON values

What `JSON.parse` yields and what the code then does with the value without looking at its type:
property access, `BigInt(value)` and `value.toString()`. A missing property is `none`
(`undefined`). Strings are sequences of Unicode scalar values: an escape of a lone surrogate is
read as U+FFFD. -/

namespace ZkChat

/-- A JSON value. -/
inductive Json where
  | null
  | bool (b : Bool)
  | num (x : Js.Number)
  | str (s : String)
  | arr (xs : List Json)
  | obj (fields : List (String × Json))

namespace Js

/-! ## Conversions -/

mutual

/-- `value.toString()`; `none` is a `TypeError` (no such method, or a field of that name that is
    not callable). -/
def jsonText : Json → Option String
  | .null => none
  | .bool b => some (toString b)
  | .num x => some (numberToString x)
  | .str s => some s
  | .arr xs => (elementTexts xs).map (String.intercalate ",")
  | .obj fields => if (fields.lookup "toString").isSome then none else some "[object Object]"

/-- The texts `Array.prototype.join` puts between the commas: `null` is the empty text. -/
def elementTexts : List Json → Option (List String)
  | [] => some []
  | .null :: xs => (elementTexts xs).map ("" :: ·)
  | x :: xs => (jsonText x).bind fun t => (elementTexts xs).map (t :: ·)

end

/-- A property access on a value that may be `undefined`. -/
def prop (v : Option Json) (key : String) : Except Exn (Option Json) :=
  match v with
  | none | some .null => .error .typeError
  | some (.obj fields) => .ok (fields.lookup key)
  | some _ => .ok none

/-- A chain of property accesses. -/
def path (v : Option Json) : List String → Except Exn (Option Json)
  | [] => .ok v
  | key :: keys => (prop v key).bind (path · keys)

/-- `value.toString()`. -/
def toText (v : Option Json) : Except Exn String :=
  match v.bind jsonText with
  | some t => .ok t
  | none => .error .typeError

/-- `BigInt(text)`. -/
def bigIntOfText (text : String) : Except Exn ℤ :=
  match stringToBigInt text with
  | some n => .ok n
  | none => .error .syntaxError

/-- `BigInt` of an optional string field. -/
def bigIntOfField : Option String → Except Exn ℤ
  | some text => bigIntOfText text
  | none => .error .typeError

/-- `BigInt(value)`: arrays and objects go through their texts. -/
def bigInt (v : Option Json) : Except Exn ℤ :=
  match v with
  | none | some .null => .error .typeError
  | some (.bool b) => .ok (if b then 1 else 0)
  | some (.num (.finite q)) => if q.den = 1 then .ok q.num else .error .rangeError
  | some (.num _) => .error .rangeError
  | some (.str s) => bigIntOfText s
  | some v => (toText v).bind bigIntOfText

@[simp] theorem bigIntOfText_bigIntToString (n : ℤ) : bigIntOfText (bigIntToString n) = .ok n := by
  simp [bigIntOfText]

/-- `BigInt` is the identity on the canonical text of an integer. -/
@[simp] theorem bigInt_str_bigIntToString (n : ℤ) :
    bigInt (some (.str (bigIntToString n))) = .ok n :=
  bigIntOfText_bigIntToString n

@[simp] theorem toText_str (s : String) : toText (some (.str s)) = .ok s := rfl

/-! ## `JSON.parse` -/

def isJsonSpace (c : Char) : Bool := c.toNat ∈ [0x9, 0xA, 0xD, 0x20]

/-- Four hexadecimal digits. -/
def hex4 (a b c d : Char) : Option ℕ := digits 16 [a, b, c, d]

/-- The UTF-16 code units of a string literal after its opening quote, and the rest of the text. -/
def scanString : List Char → Option (List ℕ × List Char)
  | [] => none
  | '"' :: cs => some ([], cs)
  | '\\' :: 'u' :: a :: b :: c :: d :: cs => do
      let u ← hex4 a b c d
      let (us, rest) ← scanString cs
      some (u :: us, rest)
  | '\\' :: e :: cs => do
      let u ← [('"', 0x22), ('\\', 0x5C), ('/', 0x2F), ('b', 0x8), ('f', 0xC), ('n', 0xA),
        ('r', 0xD), ('t', 0x9)].lookup e
      let (us, rest) ← scanString cs
      some (u :: us, rest)
  | c :: cs =>
      if c.toNat < 0x20 then none
      else do
        let (us, rest) ← scanString cs
        if c.toNat < 0x10000 then some (c.toNat :: us, rest)
        else
          let v := c.toNat - 0x10000
          some ((0xD800 + v / 0x400) :: (0xDC00 + v % 0x400) :: us, rest)

/-- The characters of a sequence of UTF-16 code units. -/
def decodeUtf16 : List ℕ → List Char
  | [] => []
  | [u] => [if 0xD800 ≤ u ∧ u < 0xE000 then Char.ofNat 0xFFFD else Char.ofNat u]
  | u :: v :: us =>
      if 0xD800 ≤ u ∧ u < 0xDC00 ∧ 0xDC00 ≤ v ∧ v < 0xE000 then
        Char.ofNat (0x10000 + (u - 0xD800) * 0x400 + (v - 0xDC00)) :: decodeUtf16 us
      else
        (if 0xD800 ≤ u ∧ u < 0xE000 then Char.ofNat 0xFFFD else Char.ofNat u)
          :: decodeUtf16 (v :: us)

def parseString (cs : List Char) : Option (String × List Char) :=
  (scanString cs).map fun (us, rest) => (String.ofList (decodeUtf16 us), rest)

/-- A JSON number: no leading zero, digits on both sides of a point. -/
def parseNumber (cs : List Char) : Option (Json × List Char) :=
  let unsigned (cs : List Char) : Option (Number × List Char) :=
    match scanDecimal cs with
    | some (int, point, frac, x, rest) =>
        if int = [] ∨ (int.head? = some '0' ∧ int.length ≠ 1) ∨ (point ∧ frac = []) then none
        else some (x, rest)
    | none => none
  match cs with
  | '-' :: cs => (unsigned cs).map fun (x, rest) => (.num x.neg, rest)
  | cs => (unsigned cs).map fun (x, rest) => (.num x, rest)

/-- A later field of the same name replaces the earlier one. -/
def setField (fields : List (String × Json)) (key : String) (v : Json) : List (String × Json) :=
  if fields.any (·.1 = key) then fields.map fun f => if f.1 = key then (key, v) else f
  else fields ++ [(key, v)]

mutual

/-- A value and the rest of the text; the first argument bounds the depth of the recursion. -/
def parseValue : ℕ → List Char → Option (Json × List Char)
  | 0, _ => none
  | fuel + 1, cs => match cs.dropWhile isJsonSpace with
    | 'n' :: 'u' :: 'l' :: 'l' :: rest => some (.null, rest)
    | 't' :: 'r' :: 'u' :: 'e' :: rest => some (.bool true, rest)
    | 'f' :: 'a' :: 'l' :: 's' :: 'e' :: rest => some (.bool false, rest)
    | '"' :: rest => (parseString rest).map fun (s, rest) => (.str s, rest)
    | '[' :: rest => match rest.dropWhile isJsonSpace with
      | ']' :: rest => some (.arr [], rest)
      | rest => parseElements fuel [] rest
    | '\x7b' :: rest => match rest.dropWhile isJsonSpace with
      | '\x7d' :: rest => some (.obj [], rest)
      | rest => parseFields fuel [] rest
    | rest => parseNumber rest

def parseElements : ℕ → List Json → List Char → Option (Json × List Char)
  | 0, _, _ => none
  | fuel + 1, xs, cs => do
      let (x, rest) ← parseValue fuel cs
      match rest.dropWhile isJsonSpace with
      | ',' :: rest => parseElements fuel (xs ++ [x]) rest
      | ']' :: rest => some (.arr (xs ++ [x]), rest)
      | _ => none

def parseFields : ℕ → List (String × Json) → List Char → Option (Json × List Char)
  | 0, _, _ => none
  | fuel + 1, fields, cs => match cs.dropWhile isJsonSpace with
    | '"' :: rest => do
        let (key, rest) ← parseString rest
        match rest.dropWhile isJsonSpace with
        | ':' :: rest => do
            let (v, rest) ← parseValue fuel rest
            match rest.dropWhile isJsonSpace with
            | ',' :: rest => parseFields fuel (setField fields key v) rest
            | '\x7d' :: rest => some (.obj (setField fields key v), rest)
            | _ => none
        | _ => none
    | _ => none

end

/-- `JSON.parse(text)`; `none` is its `SyntaxError`. Every nested value consumes a character, so
    the length of the text bounds the depth. -/
def jsonParse (text : String) : Option Json :=
  let cs := text.toList
  match parseValue (2 * cs.length + 1) cs with
  | some (v, rest) => if rest.all isJsonSpace then some v else none
  | none => none

/-! ## `JSON.stringify` -/

def hexDigit (n : ℕ) : Char := (Nat.toDigits 16 n).headD '0'

def quoteChar (c : Char) : List Char :=
  if c = '"' then ['\\', '"']
  else if c = '\\' then ['\\', '\\']
  else match [(0x8, 'b'), (0x9, 't'), (0xA, 'n'), (0xC, 'f'), (0xD, 'r')].lookup c.toNat with
    | some e => ['\\', e]
    | none =>
        if c.toNat < 0x20 then
          ['\\', 'u', '0', '0', hexDigit (c.toNat / 16), hexDigit (c.toNat % 16)]
        else [c]

def quote (s : String) : List Char := '"' :: s.toList.flatMap quoteChar ++ ['"']

mutual

def stringifyChars : Json → List Char
  | .null => "null".toList
  | .bool b => (toString b).toList
  | .num (.finite q) => (numberToString (.finite q)).toList
  | .num _ => "null".toList
  | .str s => quote s
  | .arr xs => '[' :: [','].intercalate (stringifyElements xs) ++ [']']
  | .obj fields => '\x7b' :: [','].intercalate (stringifyFields fields) ++ ['\x7d']

def stringifyElements : List Json → List (List Char)
  | [] => []
  | x :: xs => stringifyChars x :: stringifyElements xs

def stringifyFields : List (String × Json) → List (List Char)
  | [] => []
  | (key, v) :: fields => (quote key ++ ':' :: stringifyChars v) :: stringifyFields fields

end

/-- `JSON.stringify(value)`. -/
def jsonStringify (v : Json) : String := String.ofList (stringifyChars v)

end Js

end ZkChat

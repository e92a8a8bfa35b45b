import ZkChat.Js.JsonRoundTrip
import Mathlib.Data.List.TakeWhile

set_option autoImplicit false

/-! # The configuration

The numbers of the configuration are the texts of environment variables, read by `parseInt` with the
second argument that stands there: the default value, where the author of the line has written it
down once more. For most variables that is no base at all or the right one; the spam threshold is
read in base 2 and the allowed delay in base 20. So a threshold above two comes out smaller than it
was written, and a delay of ten seconds or more longer (`config_of_decimal`). -/

namespace ZkChat

namespace Js

/-! ## `parseInt` -/

/-- The value of a digit of any base; 36 for what is none. -/
def alnumValue (c : Char) : ℕ :=
  if c.isDigit then c.toNat - '0'.toNat
  else if 'a' ≤ c ∧ c ≤ 'z' then c.toNat - 'a'.toNat + 10
  else if 'A' ≤ c ∧ c ≤ 'Z' then c.toNat - 'A'.toNat + 10
  else 36

/-- The number that a run of digits is in a base. -/
def valueIn (radix : ℕ) (ds : List Char) : ℕ :=
  ds.foldl (fun n c => radix * n + alnumValue c) 0

/-- The digits at the start of the text; what follows does not matter. -/
def parseDigits (radix : ℕ) (cs : List Char) : Option ℕ :=
  let ds := cs.takeWhile (alnumValue · < radix)
  if ds = [] then none else some (valueIn radix ds)

def splitSign : List Char → Bool × List Char
  | '-' :: cs => (true, cs)
  | '+' :: cs => (false, cs)
  | cs => (false, cs)

/-- Without a base the text may carry the mark of base 16, and otherwise is decimal. -/
def splitMark : List Char → ℕ × List Char
  | '0' :: 'x' :: cs => (16, cs)
  | '0' :: 'X' :: cs => (16, cs)
  | cs => (10, cs)

/-- `parseInt(text, radix)` for the bases of the configuration. -/
def parseInt (text : String) (radix : Option ℕ) : Number :=
  let (negative, cs) := splitSign (text.toList.dropWhile isSpace)
  let (radix, cs) := match radix with
    | some radix => (radix, cs)
    | none => splitMark cs
  match parseDigits radix cs with
  | none => .nan
  | some n => nearestDouble (if negative then -n else n)

end Js

/-! ## `config.ts` -/

/-- `parseInt(process.env[name] || text, radix) || fallback`. -/
def configNumber (env : String → Option String) (name text : String) (radix : Option ℕ)
    (fallback : ℕ) : Js.Number :=
  let value := match env name with
    | none | some "" => text
    | some value => value
  let number := Js.parseInt value radix
  -- the numbers that count as false
  if number = .nan ∨ number = .finite 0 then .finite fallback else number

/-- The numbers of the configuration. -/
structure ConfigNumbers where
  REDIS_PORT : Js.Number
  SERVER_PORT : Js.Number
  SOCKET_SERVER_PORT : Js.Number
  MERKLE_TREE_LEVELS : Js.Number
  SPAM_TRESHOLD : Js.Number
  EPOCH_ALLOWED_DELAY_THRESHOLD : Js.Number
  INTERREP_SYNC_INTERVAL_SECONDS : Js.Number
  RLN_IDENTIFIER : Js.Number
  DELETE_MESSAGES_OLDER_THAN_DAYS : Js.Number
deriving DecidableEq

def configNumbers (env : String → Option String) : ConfigNumbers where
  REDIS_PORT := configNumber env "REDIS_PORT" "6379" none 6379
  SERVER_PORT := configNumber env "SERVER_PORT" "8080" none 8080
  SOCKET_SERVER_PORT := configNumber env "SOCKET_SERVER_PORT" "8081" none 8081
  MERKLE_TREE_LEVELS := configNumber env "MERKLE_TREE_LEVELS" "16" (some 10) 16
  SPAM_TRESHOLD := configNumber env "SPAM_TRESHOLD" "2" (some 2) 2
  EPOCH_ALLOWED_DELAY_THRESHOLD :=
    configNumber env "EPOCH_ALLOWED_DELAY_THRESHOLD" "20" (some 20) 20
  INTERREP_SYNC_INTERVAL_SECONDS := configNumber env "INTERREP_SYNC_INTERVAL_SECONDS" "300" none 300
  RLN_IDENTIFIER := configNumber env "RLN_IDENTIFIER" "518137101" none 518137101
  DELETE_MESSAGES_OLDER_THAN_DAYS :=
    configNumber env "DELETE_MESSAGES_OLDER_THAN_DAYS" "5" none 5

/-! ## Decimal texts in another base -/

namespace Js

theorem alnumValue_digitChar : ∀ d < 10, alnumValue (Nat.digitChar d) = d := by decide

@[simp] theorem valueIn_append_singleton (radix : ℕ) (ds : List Char) (c : Char) :
    valueIn radix (ds ++ [c]) = radix * valueIn radix ds + alnumValue c := by
  simp [valueIn]

/-- A decimal text is one digit, or a shorter text and one digit more. -/
theorem toDigits_cases (n : ℕ) : (n < 10 ∧ Nat.toDigits 10 n = [Nat.digitChar n]) ∨
    (10 ≤ n ∧ Nat.toDigits 10 n = Nat.toDigits 10 (n / 10) ++ [Nat.digitChar (n % 10)]) := by
  rcases Nat.lt_or_ge n 10 with hlt | hge
  · exact .inl ⟨hlt, Nat.toDigits_of_lt_base hlt⟩
  · exact .inr ⟨hge, Nat.toDigits_of_base_le (by decide) hge⟩

/-- In a base of ten or more the whole text is read. -/
theorem takeWhile_toDigits {radix : ℕ} (hradix : 10 ≤ radix) (n : ℕ) :
    (Nat.toDigits 10 n).takeWhile (alnumValue · < radix) = Nat.toDigits 10 n := by
  rw [List.takeWhile_eq_self_iff]
  intro c hc
  have hdigit := Char.isDigit_iff_toNat.mp (isDigit_of_mem_toDigits hc)
  simp only [Char.reduceToNat] at hdigit
  have hvalue : alnumValue c = c.toNat - 48 := by
    rw [alnumValue, if_pos (isDigit_of_mem_toDigits hc)]
    rfl
  rw [hvalue, decide_eq_true_eq]
  omega

theorem valueIn_ten (n : ℕ) : valueIn 10 (Nat.toDigits 10 n) = n := by
  induction n using Nat.strongRecOn with
  | ind n ih =>
      rcases toDigits_cases n with ⟨hlt, hdigits⟩ | ⟨hge, hdigits⟩
      · rw [hdigits]
        simpa [valueIn] using alnumValue_digitChar n hlt
      · rw [hdigits, valueIn_append_singleton, ih (n / 10) (by omega),
          alnumValue_digitChar _ (Nat.mod_lt n (by decide))]
        omega

/-- Read in base 20, a number of two digits or more becomes larger. -/
theorem valueIn_twenty (n : ℕ) : n ≤ valueIn 20 (Nat.toDigits 10 n) ∧
    (valueIn 20 (Nat.toDigits 10 n) = n ↔ n < 10) := by
  induction n using Nat.strongRecOn with
  | ind n ih =>
      rcases toDigits_cases n with ⟨hlt, hdigits⟩ | ⟨hge, hdigits⟩
      · have hvalue : valueIn 20 (Nat.toDigits 10 n) = n := by
          rw [hdigits]
          simpa [valueIn] using alnumValue_digitChar n hlt
        exact ⟨hvalue.ge, iff_of_true hvalue hlt⟩
      · obtain ⟨hle, -⟩ := ih (n / 10) (by omega)
        rw [hdigits, valueIn_append_singleton, alnumValue_digitChar _ (Nat.mod_lt n (by decide))]
        omega

theorem valueIn_twenty_le (n : ℕ) : valueIn 20 (Nat.toDigits 10 n) ≤ n * n := by
  induction n using Nat.strongRecOn with
  | ind n ih =>
      rcases toDigits_cases n with ⟨hlt, -⟩ | ⟨hge, hdigits⟩
      · rw [(valueIn_twenty n).2.mpr hlt]
        exact Nat.le_mul_self n
      · have hle := ih (n / 10) (by omega)
        rw [hdigits, valueIn_append_singleton, alnumValue_digitChar _ (Nat.mod_lt n (by decide))]
        have hn : n = 10 * (n / 10) + n % 10 := (Nat.div_add_mod n 10).symm
        generalize n / 10 = m at hle hn
        generalize n % 10 = d at hn
        subst hn
        have hd := Nat.le_mul_self d
        nlinarith

/-- Read in base 2, up to the first digit that is none, a number above one becomes smaller. -/
theorem valueIn_two (n : ℕ) :
    valueIn 2 ((Nat.toDigits 10 n).takeWhile (alnumValue · < 2)) ≤ n ∧
      (valueIn 2 ((Nat.toDigits 10 n).takeWhile (alnumValue · < 2)) = n ↔ n < 2) := by
  induction n using Nat.strongRecOn with
  | ind n ih =>
      rcases toDigits_cases n with ⟨hlt, hdigits⟩ | ⟨hge, hdigits⟩
      · rw [hdigits, List.takeWhile_cons, alnumValue_digitChar n hlt]
        by_cases h : n < 2
        · simp [h, valueIn, alnumValue_digitChar n hlt]
        · simp only [h, decide_false, Bool.false_eq_true, if_false, valueIn, List.foldl_nil,
            iff_false]
          omega
      · obtain ⟨hle, -⟩ := ih (n / 10) (by omega)
        rw [hdigits, List.takeWhile_append]
        split
        · next hlength =>
            have hall := (List.takeWhile_prefix _).eq_of_length hlength
            rw [hall] at hle
            rw [List.takeWhile_cons, alnumValue_digitChar _ (Nat.mod_lt n (by decide))]
            by_cases h : n % 10 < 2
            · simp only [h, decide_true, if_true, List.takeWhile_nil, valueIn_append_singleton,
                alnumValue_digitChar _ (Nat.mod_lt n (by decide : 10 > 0))]
              omega
            · simp only [h, decide_false, Bool.false_eq_true, if_false, List.append_nil]
              omega
        · omega

theorem splitSign_of_digits {cs : List Char} (h : ∀ c ∈ cs, c.isDigit) :
    splitSign cs = (false, cs) := by
  unfold splitSign
  split
  · exact absurd (h '-' (by simp)) (by decide)
  · exact absurd (h '+' (by simp)) (by decide)
  · rfl

theorem splitMark_of_digits {cs : List Char} (h : ∀ c ∈ cs, c.isDigit) :
    splitMark cs = (10, cs) := by
  unfold splitMark
  split
  · exact absurd (h 'x' (by simp)) (by decide)
  · exact absurd (h 'X' (by simp)) (by decide)
  · rfl

/-- The text of a natural number, read in a base. -/
theorem parseInt_decimal (n : ℕ) (radix : Option ℕ) :
    parseInt (bigIntToString n) radix
      = match parseDigits (radix.getD 10) (Nat.toDigits 10 n) with
        | none => .nan
        | some v => nearestDouble v := by
  have hdigits : ∀ c ∈ Nat.toDigits 10 n, c.isDigit := fun c hc => isDigit_of_mem_toDigits hc
  have htext : (bigIntToString n).toList.dropWhile isSpace = Nat.toDigits 10 n := by
    rw [show (bigIntToString n).toList = Nat.toDigits 10 n from toList_bigIntToString_ofNat n]
    cases hcs : Nat.toDigits 10 n with
    | nil => rfl
    | cons c cs => simp [not_isSpace_of_isDigit (hdigits c (by simp [hcs]))]
  cases radix with
  | some radix => simp [parseInt, htext, splitSign_of_digits hdigits]
  | none => simp [parseInt, htext, splitSign_of_digits hdigits, splitMark_of_digits hdigits]

/-- In a base of ten or more every decimal text is a number. -/
theorem parseInt_decimal_of_le {radix : Option ℕ} (hradix : 10 ≤ radix.getD 10) (n : ℕ) :
    parseInt (bigIntToString n) radix
      = nearestDouble (valueIn (radix.getD 10) (Nat.toDigits 10 n)) := by
  rw [parseInt_decimal, parseDigits, takeWhile_toDigits hradix]
  simp [Nat.toDigits_ne_nil]

end Js

/-! ## The numbers that the variables give -/

section Decimal

variable {env : String → Option String} {name text : String} {fallback n : ℕ}

/-- The text of a number is not empty, so it is what `parseInt` reads. -/
theorem configNumber_of_decimal {radix : Option ℕ}
    (hname : env name = some (Js.bigIntToString n)) :
    configNumber env name text radix fallback
      = let number := Js.parseInt (Js.bigIntToString n) radix
        if number = .nan ∨ number = .finite 0 then .finite fallback else number := by
  have hne : Js.bigIntToString n ≠ "" := by
    intro hempty
    have hlist : (Js.bigIntToString n).toList = [] := by simp [hempty]
    exact Nat.toDigits_ne_nil ((Js.toList_bigIntToString_ofNat n).symm.trans hlist)
  rw [configNumber, hname]
  split
  · next h => cases h
  · next h => exact absurd (Option.some.inj h) hne
  · next h => rw [Option.some.inj h]

/-- A variable that is read as decimal has the number that was written, unless that is zero. -/
theorem configNumber_ten {radix : Option ℕ} (hradix : radix.getD 10 = 10)
    (hname : env name = some (Js.bigIntToString n)) (hn : n < 2 ^ 53) (hfallback : fallback ≠ 0) :
    configNumber env name text radix fallback = .finite n ↔ n ≠ 0 := by
  rw [configNumber_of_decimal hname, Js.parseInt_decimal_of_le hradix.ge, hradix, Js.valueIn_ten,
    Js.nearestDouble_natCast hn.le]
  by_cases h : n = 0
  · simp [h, hfallback]
  · simp [h]

/-- A variable that is read in base 2 with the default 2 is right for one and for two. -/
theorem configNumber_two (text : String) (hname : env name = some (Js.bigIntToString n))
    (hn : n < 2 ^ 53) :
    ∃ v : ℕ, configNumber env name text (some 2) 2 = .finite v ∧
      (v = n ↔ n = 1 ∨ n = 2) ∧ (2 < n → v < n) := by
  obtain ⟨hle, heq⟩ := Js.valueIn_two n
  rw [configNumber_of_decimal hname, Js.parseInt_decimal, Js.parseDigits, Option.getD_some]
  by_cases hnil : (Nat.toDigits 10 n).takeWhile (Js.alnumValue · < 2) = []
  · -- no digit of the base: the default
    rw [hnil, show Js.valueIn 2 [] = 0 from rfl] at heq
    refine ⟨2, ?_, ?_, id⟩
    · rw [if_pos hnil]
      simp
    · omega
  · have hne : n ≠ 2 := by
      rintro rfl
      exact hnil (by decide)
    rw [if_neg hnil]
    generalize Js.valueIn 2 ((Nat.toDigits 10 n).takeWhile (Js.alnumValue · < 2)) = v at hle heq ⊢
    have hrounded := Js.nearestDouble_natCast (hle.trans hn.le)
    by_cases hzero : v = 0
    · subst hzero
      refine ⟨2, by simpa using fun _ h => absurd hrounded h, ?_, id⟩
      omega
    · refine ⟨v, by simp [hrounded, hzero], ?_⟩
      omega

/-- A variable that is read in base 20 with the default 20 is right for one digit. -/
theorem configNumber_twenty (hname : env name = some (Js.bigIntToString n)) (hn : n < 2 ^ 53) :
    (configNumber env name text (some 20) 20 = .finite n ↔ 0 < n ∧ n < 10) ∧
      (10 ≤ n → ∃ q : ℚ, configNumber env name text (some 20) 20 = .finite q ∧ n < q) := by
  have hsquare := Js.valueIn_twenty_le n
  obtain ⟨hle, heq⟩ := Js.valueIn_twenty n
  rw [configNumber_of_decimal hname, Js.parseInt_decimal_of_le (by decide), Option.getD_some]
  generalize Js.valueIn 20 (Nat.toDigits 10 n) = v at hle heq hsquare ⊢
  rcases Nat.lt_or_ge n 10 with hlt | hge
  · rw [heq.mpr hlt, Js.nearestDouble_natCast hn.le]
    refine ⟨?_, fun h => absurd h (by omega)⟩
    by_cases hzero : n = 0
    · simp [hzero]
    · simp [hzero, hlt]
      omega
  · have hbound : v < 2 ^ 106 := by
      calc v ≤ n * n := hsquare
        _ < 2 ^ 53 * 2 ^ 53 := Nat.mul_lt_mul'' hn hn
        _ = 2 ^ 106 := (Nat.pow_add 2 53 53).symm
    obtain ⟨q, hq⟩ := Js.nearestDouble_natCast_finite hbound (by decide)
    have hlarger : (n : ℚ) < q := by
      have hlt : n < v := Nat.lt_of_le_of_ne hle fun h => absurd (heq.mp h.symm) (by omega)
      have habs : ((n + 1 : ℕ) : ℚ) ≤ |(v : ℚ)| := by
        rw [abs_of_nonneg (by positivity)]
        exact_mod_cast hlt
      have hrounded := Js.le_abs_nearestDouble hn habs hq
      rw [abs_of_nonneg (Js.nearestDouble_nonneg (by positivity) hq)] at hrounded
      push_cast at hrounded
      linarith
    have hzero : q ≠ 0 := by
      rintro rfl
      exact absurd hlarger (not_lt.mpr n.cast_nonneg)
    rw [hq, if_neg (by simp [hzero])]
    refine ⟨iff_of_false (fun h => ?_) (by omega), fun _ => ⟨q, rfl, hlarger⟩⟩
    exact hlarger.ne' (Js.Number.finite.inj h)

end Decimal

/-- A variable holds the text of the number that its operator wants. The variables that are read as
decimal give that number, unless it is zero. The spam threshold is right for one and for two, and a
smaller number from three on; the allowed delay is right from one second up to nine, and a larger
number from ten on. -/
theorem config_of_decimal (env : String → Option String) {n : ℕ} (hn : n < 2 ^ 53) :
    (env "SPAM_TRESHOLD" = some (Js.bigIntToString n) →
      ((configNumbers env).SPAM_TRESHOLD = .finite n ↔ n = 1 ∨ n = 2) ∧
        (2 < n → ∃ v < n, (configNumbers env).SPAM_TRESHOLD = .finite v)) ∧
    (env "EPOCH_ALLOWED_DELAY_THRESHOLD" = some (Js.bigIntToString n) →
      ((configNumbers env).EPOCH_ALLOWED_DELAY_THRESHOLD = .finite n ↔ 0 < n ∧ n < 10) ∧
        (10 ≤ n → ∃ q : ℚ, (configNumbers env).EPOCH_ALLOWED_DELAY_THRESHOLD = .finite q ∧
          n < q)) ∧
    ∀ entry ∈ [("REDIS_PORT", (configNumbers env).REDIS_PORT),
        ("SERVER_PORT", (configNumbers env).SERVER_PORT),
        ("SOCKET_SERVER_PORT", (configNumbers env).SOCKET_SERVER_PORT),
        ("MERKLE_TREE_LEVELS", (configNumbers env).MERKLE_TREE_LEVELS),
        ("INTERREP_SYNC_INTERVAL_SECONDS", (configNumbers env).INTERREP_SYNC_INTERVAL_SECONDS),
        ("RLN_IDENTIFIER", (configNumbers env).RLN_IDENTIFIER),
        ("DELETE_MESSAGES_OLDER_THAN_DAYS", (configNumbers env).DELETE_MESSAGES_OLDER_THAN_DAYS)],
      env entry.1 = some (Js.bigIntToString n) → (entry.2 = .finite n ↔ n ≠ 0) := by
  refine ⟨fun hname => ?_, fun hname => configNumber_twenty hname hn, ?_⟩
  · obtain ⟨v, hv, hiff, hlt⟩ := configNumber_two "2" hname hn
    have hspam : (configNumbers env).SPAM_TRESHOLD = .finite v := hv
    rw [hspam]
    refine ⟨?_, fun h => ⟨v, hlt h, rfl⟩⟩
    rw [Js.Number.finite.injEq, Nat.cast_inj]
    exact hiff
  · intro entry hmem hname
    simp only [List.mem_cons, List.not_mem_nil, or_false] at hmem
    rcases hmem with rfl | rfl | rfl | rfl | rfl | rfl | rfl <;>
      exact configNumber_ten rfl hname hn (by decide)

/-- A delay of a hundred seconds is read as a longer one. -/
theorem config_of_hundred :
    let env := fun name => if name = "EPOCH_ALLOWED_DELAY_THRESHOLD" then some "100" else none
    ∃ q : ℚ, (configNumbers env).EPOCH_ALLOWED_DELAY_THRESHOLD = .finite q ∧ 100 < q := by
  intro env
  have htext : env "EPOCH_ALLOWED_DELAY_THRESHOLD" = some (Js.bigIntToString (100 : ℕ)) := by
    decide
  exact ((config_of_decimal env (n := 100) (by decide)).2.1 htext).2 (by decide)

/-- Without variables, the delay is not the default that the source names twice. -/
example : (configNumbers fun _ => none).EPOCH_ALLOWED_DELAY_THRESHOLD = .finite 40 ∧
    (configNumbers fun _ => none).SPAM_TRESHOLD = .finite 2 := by decide

end ZkChat

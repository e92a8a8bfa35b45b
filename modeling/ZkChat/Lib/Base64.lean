import Mathlib.Data.List.Basic
import Mathlib.Tactic.Common

set_option autoImplicit false

/-! # Base64

Byte strings and their base64 texts, with padding, the characters as UTF-16 code units. `decode` is
the forgiving decoding of the web platform: it skips white space and does not insist on the padding.
What `encode` writes it reads back (`decode_encode`). -/

namespace ZkChat.Base64

/-! ## Bytes and sextets -/

/-- The bits in groups of six; the last group is filled up with zeros. -/
def sextets : List UInt8 → List ℕ
  | [] => []
  | [a] => [a.toNat / 4, a.toNat % 4 * 16]
  | [a, b] => [a.toNat / 4, a.toNat % 4 * 16 + b.toNat / 16, b.toNat % 16 * 4]
  | a :: b :: c :: rest =>
      a.toNat / 4 :: (a.toNat % 4 * 16 + b.toNat / 16) :: (b.toNat % 16 * 4 + c.toNat / 64) ::
        c.toNat % 64 :: sextets rest

/-- The bits in groups of eight; what is left over is dropped. -/
def bytes : List ℕ → List UInt8
  | w :: x :: y :: z :: rest =>
      .ofNat (w * 4 + x / 16) :: .ofNat (x % 16 * 16 + y / 4) :: .ofNat (y % 4 * 64 + z) :: bytes rest
  | [w, x, y] => [.ofNat (w * 4 + x / 16), .ofNat (x % 16 * 16 + y / 4)]
  | [w, x] => [.ofNat (w * 4 + x / 16)]
  | _ => []

theorem ofNat_eq {a : UInt8} {n : ℕ} (h : n = a.toNat) : UInt8.ofNat n = a := by
  rw [h, UInt8.ofNat_toNat]

theorem bytes_sextets (bs : List UInt8) : bytes (sextets bs) = bs := by
  induction bs using sextets.induct with
  | case1 => rfl
  | case2 a =>
      have := a.toNat_lt
      simp only [sextets, bytes]
      rw [ofNat_eq (a := a) (by omega)]
  | case3 a b =>
      have := a.toNat_lt
      have := b.toNat_lt
      simp only [sextets, bytes]
      rw [ofNat_eq (a := a) (by omega), ofNat_eq (a := b) (by omega)]
  | case4 a b c rest ih =>
      have := a.toNat_lt
      have := b.toNat_lt
      have := c.toNat_lt
      simp only [sextets, bytes, ih]
      rw [ofNat_eq (a := a) (by omega), ofNat_eq (a := b) (by omega), ofNat_eq (a := c) (by omega)]

theorem sextets_lt {bs : List UInt8} {s : ℕ} (h : s ∈ sextets bs) : s < 64 := by
  induction bs using sextets.induct with
  | case1 => simp [sextets] at h
  | case2 a =>
      have := a.toNat_lt
      simp only [sextets, List.mem_cons, List.not_mem_nil, or_false] at h
      omega
  | case3 a b =>
      have := a.toNat_lt
      have := b.toNat_lt
      simp only [sextets, List.mem_cons, List.not_mem_nil, or_false] at h
      omega
  | case4 a b c rest ih =>
      have := a.toNat_lt
      have := b.toNat_lt
      have := c.toNat_lt
      simp only [sextets, List.mem_cons] at h
      rcases h with h | h | h | h | h
      · omega
      · omega
      · omega
      · omega
      · exact ih h

/-! ## Texts -/

def unit (c : Char) : UInt16 := .ofNat c.toNat

def alphabet : List UInt16 :=
  "ABCDEFGHIJKLMNOPQRSTUVWXYZabcdefghijklmnopqrstuvwxyz0123456789+/".toList.map unit

/-- The padding character. -/
def pad : UInt16 := unit '='

def spaces : List UInt16 := [0x9, 0xA, 0xC, 0xD, 0x20]

/-- How many padding characters complete the last group of four. -/
def padding (bs : List UInt8) : ℕ := (3 - bs.length % 3) % 3

def encode (bs : List UInt8) : List UInt16 :=
  (sextets bs).map (fun s => alphabet.getD s 0) ++ List.replicate (padding bs) pad

/-- One or two padding characters are dropped. -/
def dropPadding (text : List UInt16) : List UInt16 :=
  match text.reverse with
  | x :: y :: rest =>
      if x = pad then if y = pad then rest.reverse else (y :: rest).reverse else text
  | _ => text

/-- The sextets of the characters, unless one of them has none. -/
def values : List UInt16 → Option (List ℕ)
  | [] => some []
  | c :: text => do
      let s ← alphabet.idxOf? c
      let ss ← values text
      pure (s :: ss)

def decode (text : List UInt16) : Option (List UInt8) :=
  let text := text.filter (· ∉ spaces)
  let text := if text.length % 4 = 0 then dropPadding text else text
  if text.length % 4 = 1 then none else (values text).map bytes

/-! ## Reading back -/

theorem alphabet_facts : ∀ s < 64, alphabet.idxOf? (alphabet.getD s 0) = some s ∧
    alphabet.getD s 0 ∉ spaces ∧ alphabet.getD s 0 ≠ pad := by
  decide +kernel

/-- The padding completes the last group. -/
theorem length_sextets (bs : List UInt8) :
    (sextets bs).length + padding bs = 4 * ((bs.length + 2) / 3) := by
  unfold padding
  induction bs using sextets.induct with
  | case1 => rfl
  | case2 a => simp [sextets]
  | case3 a b => simp [sextets]
  | case4 a b c rest ih =>
      simp only [sextets, List.length_cons]
      omega

theorem values_map {ss : List ℕ} (h : ∀ s ∈ ss, s < 64) :
    values (ss.map fun s => alphabet.getD s 0) = some ss := by
  induction ss with
  | nil => rfl
  | cons s ss ih =>
      rw [List.map_cons, values, (alphabet_facts s (h s (by simp))).1,
        ih fun t ht => h t (by simp [ht])]
      rfl

theorem dropPadding_append {text : List UInt16} (htext : ∀ c ∈ text, c ≠ pad) {k : ℕ} (hk : k < 3)
    (hlength : 2 ≤ text.length) : dropPadding (text ++ List.replicate k pad) = text := by
  obtain ⟨x, y, rest, hrest⟩ : ∃ x y rest, text.reverse = x :: y :: rest := by
    rw [← List.length_reverse] at hlength
    match hr : text.reverse, hlength with
    | x :: y :: rest, _ => exact ⟨x, y, rest, rfl⟩
  have hback : (x :: y :: rest).reverse = text := by rw [← hrest, List.reverse_reverse]
  have hx : x ≠ pad := htext x (List.mem_reverse.mp (by simp [hrest]))
  unfold dropPadding
  rw [List.reverse_append, List.reverse_replicate, hrest]
  match k, hk with
  | 0, _ => simp [hx]
  | 1, _ => simpa [hx] using hback
  | 2, _ => simpa using hback

/-- What is written is read back. -/
theorem decode_encode (bs : List UInt8) : decode (encode bs) = some bs := by
  have hchar : ∀ c ∈ (sextets bs).map (fun s => alphabet.getD s 0), c ∉ spaces ∧ c ≠ pad := by
    intro c hc
    obtain ⟨s, hs, rfl⟩ := List.mem_map.mp hc
    exact (alphabet_facts s (sextets_lt hs)).2
  have hspaces : (encode bs).filter (· ∉ spaces) = encode bs := by
    refine List.filter_eq_self.mpr fun c hc => ?_
    rcases List.mem_append.mp hc with hc | hc
    · simpa using (hchar c hc).1
    · rw [List.eq_of_mem_replicate hc]
      decide
  have hlength := length_sextets bs
  have hpadding : padding bs < 3 := Nat.mod_lt _ (by decide)
  have hdrop : dropPadding (encode bs) = (sextets bs).map fun s => alphabet.getD s 0 := by
    rcases bs with _ | ⟨b, bs⟩
    · rfl
    · refine dropPadding_append (fun c hc => (hchar c hc).2) hpadding ?_
      rw [List.length_cons] at hlength
      rw [List.length_map]
      omega
  have htotal : (encode bs).length % 4 = 0 := by
    rw [encode, List.length_append, List.length_map, List.length_replicate, hlength]
    omega
  simp only [decode, hspaces, if_pos htotal, hdrop, List.length_map]
  rw [if_neg (by omega), values_map fun s hs => sextets_lt hs, Option.map_some, bytes_sextets]

end ZkChat.Base64

import Mathlib.Data.Nat.Log
import Mathlib.Tactic.IntervalCases

/-!
# Eras of transactions

`generic/era.rs`: the blocks at which a transaction is valid. A mortal era is a period and a phase
in it. Four bits encode the period, a power of two, and twelve the phase, which is quantized if the
period is too long for them. Numbers are those of a `u64`; a panic is `none`.
-/

namespace Substrate

open Nat UInt8

inductive Era where
  | Immortal
  | Mortal (period phase : Nat)
deriving DecidableEq

namespace Era

inductive Error where
  | notEnoughData
  /-- "Invalid period and phase" -/
  | invalidPeriodAndPhase
deriving DecidableEq

def quantizeFactor (period : Nat) : Nat := max (period >>> 12) 1

def mortal (period current : Nat) : Era :=
  let nextPowerOfTwo := 2 ^ clog 2 period
  let period := min (max (if nextPowerOfTwo < 2 ^ 64 then nextPowerOfTwo else 1 <<< 16) 4) (1 <<< 16)
  let phase := current % period
  Mortal period (phase / quantizeFactor period * quantizeFactor period)

def birth : Era → Nat → Option Nat
  | Immortal, _ => some 0
  | Mortal period phase, current =>
    if period = 0 then none else some ((max current phase - phase) / period * period + phase)

def death (era : Era) (current : Nat) : Option Nat :=
  match era with
  | Immortal => some (2 ^ 64 - 1)
  | Mortal period _ => do
    let birth ← era.birth current
    if birth + period < 2 ^ 64 then some (birth + period) else none

def trailingZeros : (width n : Nat) → Nat
  | 0, _ => 0
  | width + 1, n => if n % 2 = 0 then trailingZeros width (n / 2) + 1 else 0

def encode : Era → Option (List UInt8)
  | Immortal => some [0]
  | Mortal period phase =>
    let zeros := trailingZeros 64 period
    if zeros = 0 then none
    else
      let encoded := min (max (zeros - 1) 1) 15 ||| (phase / quantizeFactor period) <<< 4 % 2 ^ 16
      some [.ofNat encoded, .ofNat (encoded >>> 8)]

/-- The era, and the bytes that are left. -/
def decode : List UInt8 → Except Error (Era × List UInt8)
  | [] => .error .notEnoughData
  | first :: input =>
    if first = 0 then .ok (Immortal, input)
    else
      match input with
      | [] => .error .notEnoughData
      | second :: input =>
        let encoded := first.toNat + second.toNat <<< 8
        let period := 2 <<< (encoded % (1 <<< 4))
        let phase := (encoded >>> 4) * quantizeFactor period
        if 4 ≤ period ∧ phase < period then .ok (Mortal period phase, input)
        else .error .invalidPeriodAndPhase

/-! ## Encoding -/

def ofBits (k q : Nat) : Era := Mortal (2 ^ (k + 1)) (q * quantizeFactor (2 ^ (k + 1)))

/-- The bits that are accepted. -/
structure Valid (k q : Nat) : Prop where
  pos : 1 ≤ k
  le : k ≤ 15
  phase : q * quantizeFactor (2 ^ (k + 1)) < 2 ^ (k + 1)

variable {k q : Nat}

theorem quantizeFactor_pos (period : Nat) : 0 < quantizeFactor period := by
  unfold quantizeFactor
  omega

theorem trailingZeros_two_pow {width : Nat} (h : k < width) : trailingZeros width (2 ^ k) = k := by
  induction width generalizing k with
  | zero => exact absurd h (not_lt_zero k)
  | succ width ih =>
    cases k with
    | zero => rfl
    | succ k =>
      rw [trailingZeros, Nat.pow_succ, Nat.mul_mod_left, if_pos rfl, Nat.mul_div_cancel _ two_pos,
        ih (lt_of_succ_lt_succ h)]

theorem Valid.lt (h : Valid k q) : q < 2 ^ 12 := by
  obtain ⟨hk, hk', hq⟩ := h
  have hle : 2 ^ (k + 1) ≤ 2 ^ 12 * quantizeFactor (2 ^ (k + 1)) := by
    interval_cases k <;> decide
  exact Nat.lt_of_mul_lt_mul_right (hq.trans_le hle)

theorem encode_ofBits (h : Valid k q) :
    (ofBits k q).encode = some [.ofNat (q * 16 + k), .ofNat ((q * 16 + k) / 256)] := by
  have hq := h.lt
  have hle := h.le
  have hzeros : trailingZeros 64 (2 ^ (k + 1)) = k + 1 := trailingZeros_two_pow (by omega)
  have hclamp : min (max (k + 1 - 1) 1) 15 = k := by
    have := h.pos
    omega
  have hor : k ||| q <<< 4 % 2 ^ 16 = q * 16 + k := by
    rw [Nat.mod_eq_of_lt (by rw [Nat.shiftLeft_eq]; omega), Nat.or_comm,
      ← Nat.shiftLeft_add_eq_or_of_lt (by omega), Nat.shiftLeft_eq]
  simp only [ofBits, encode, hzeros, hclamp, Nat.mul_div_cancel _ (quantizeFactor_pos _), hor]
  rw [if_neg (Nat.succ_ne_zero k), Nat.shiftRight_eq_div_pow]

theorem decode_eq_ok {first second : UInt8} {rest : List UInt8} {era} (hfirst : first ≠ 0)
    (hencoded : first.toNat + second.toNat * 256 = q * 16 + k) (hk : k ≤ 15) :
    decode (first :: second :: rest) = .ok era ↔ Valid k q ∧ era = (ofBits k q, rest) := by
  have hlow : (q * 16 + k) % 16 = k := by omega
  have hhigh : (q * 16 + k) >>> 4 = q := by omega
  have hperiod : 2 <<< k = 2 ^ (k + 1) := by rw [shiftLeft_eq, pow_succ']
  have hfour : 4 ≤ 2 ^ (k + 1) ↔ 1 ≤ k := by
    change 2 ^ 2 ≤ _ ↔ _
    rw [Nat.pow_le_pow_iff_right (by decide), Nat.succ_le_succ_iff]
  simp only [decode, if_neg hfirst, shiftLeft_eq second.toNat, reducePow, hencoded,
    reduceShiftLeft, hlow, hhigh, hperiod, hfour]
  constructor
  · intro h
    split at h
    · rename_i hvalid
      exact ⟨⟨hvalid.1, hk, hvalid.2⟩, (Except.ok.inj h).symm⟩
    · cases h
  · rintro ⟨hvalid, rfl⟩
    exact if_pos ⟨hvalid.pos, hvalid.phase⟩

theorem encode_of_decode {input rest : List UInt8} {era : Era} (h : decode input = .ok (era, rest)) :
    ∃ bytes, era.encode = some bytes ∧ input = bytes ++ rest := by
  rcases input with _ | ⟨first, input⟩
  · cases h
  by_cases hfirst : first = 0
  · subst hfirst
    cases h
    exact ⟨[0], rfl, rfl⟩
  rcases input with _ | ⟨second, input⟩
  · simp [decode, hfirst] at h
  have hlow := first.toNat_lt
  have hhigh := second.toNat_lt
  obtain ⟨e, he⟩ : ∃ e, first.toNat + second.toNat * 256 = e := ⟨_, rfl⟩
  have hbits : e / 16 * 16 + e % 16 = e := div_add_mod' e 16
  obtain ⟨hvalid, hera⟩ := (decode_eq_ok hfirst (he.trans hbits.symm) (by omega)).mp h
  cases hera
  refine ⟨_, encode_ofBits hvalid, ?_⟩
  have hbytes : ofNat e = first ∧ ofNat (e / 256) = second := by
    rw [← UInt8.toNat_inj, ← UInt8.toNat_inj, UInt8.toNat_ofNat', UInt8.toNat_ofNat']
    omega
  rw [hbits, hbytes.1, hbytes.2]
  rfl

theorem decode_of_encode (h : Valid k q) (rest : List UInt8) :
    decode (.ofNat (q * 16 + k) :: .ofNat ((q * 16 + k) / 256) :: rest) = .ok (ofBits k q, rest) := by
  have hq := h.lt
  have hpos := h.pos
  have hle := h.le
  have hlow : (ofNat (q * 16 + k)).toNat = (q * 16 + k) % 256 := toNat_ofNat'
  have hhigh : (ofNat ((q * 16 + k) / 256)).toNat = (q * 16 + k) / 256 % 256 :=
    toNat_ofNat'
  refine (decode_eq_ok (fun hzero => ?_) (by omega) hle).mpr ⟨h, rfl⟩
  rw [hzero] at hlow
  change 0 = _ at hlow
  omega

/-! ## Windows -/

theorem mortal_eq (period current : Nat) : ∃ k q, Valid k q ∧
    q * quantizeFactor (2 ^ (k + 1)) ≤ current ∧ mortal period current = ofBits k q := by
  have hclamp : ∃ k, 1 ≤ k ∧ k ≤ 15 ∧ min (max (if 2 ^ clog 2 period < 2 ^ 64 then
      2 ^ clog 2 period else 1 <<< 16) 4) (1 <<< 16) = 2 ^ (k + 1) := by
    generalize clog 2 period = m
    rcases lt_or_ge m 17 with hm | hm
    · refine ⟨min (max m 2) 16 - 1, by omega, by omega, ?_⟩
      interval_cases m <;> rfl
    · have hle : 2 ^ 17 ≤ 2 ^ m := Nat.pow_le_pow_right (by decide) hm
      refine ⟨15, by decide, by decide, ?_⟩
      simp only [reduceShiftLeft]
      split <;> omega
  obtain ⟨k, hk, hk', hperiod⟩ := hclamp
  have hphase := div_mul_le_self (current % 2 ^ (k + 1)) (quantizeFactor (2 ^ (k + 1)))
  refine ⟨k, _, ⟨hk, hk', hphase.trans_lt (Nat.mod_lt _ (Nat.two_pow_pos _))⟩,
    hphase.trans (mod_le _ _), ?_⟩
  simp only [mortal, hperiod, ofBits]

theorem birth_Mortal {period phase current b : Nat} (hperiod : 0 < period) (hphase : phase ≤ current)
    (hb : b = (current - phase) / period * period + phase) :
    b ≤ current ∧ current < b + period ∧
      (∀ c, b ≤ c → c < b + period → (Mortal period phase).birth c = some b) ∧
      ∀ c, b + period ≤ c → ∃ b', (Mortal period phase).birth c = some b' ∧ b + period ≤ b' := by
  have hbirth : ∀ c, phase ≤ c → (Mortal period phase).birth c =
      some ((c - phase) / period * period + phase) := by
    intro c hc
    rw [birth, if_neg hperiod.ne', max_eq_left hc]
  have hmod := div_add_mod' (current - phase) period
  have hlt := mod_lt (current - phase) hperiod
  refine ⟨by omega, by omega, fun c hc hc' => ?_, fun c hc => ?_⟩
  · rw [hbirth c (by omega), hb, Nat.div_eq_of_lt_le (k := (current - phase) / period) (by omega)]
    rw [succ_mul]
    omega
  · refine ⟨_, hbirth c (by omega), ?_⟩
    have hle : (current - phase) / period + 1 ≤ (c - phase) / period := by
      rw [le_div_iff_mul_le hperiod, succ_mul]
      omega
    have hmul := mul_le_mul_right period hle
    rw [succ_mul] at hmul
    omega

/-- **Eras are windows, and their encoding is exact.** An era made for a block is decoded from its
encoding, and contains the block; the blocks of it have its birth and death, and those after it are
born no earlier than it dies. -/
theorem era_windows_and_encoding (period current : Nat) (hfits : current + 65536 < 2 ^ 64) :
    (∀ rest, ∃ bytes, (mortal period current).encode = some bytes ∧
      decode (bytes ++ rest) = .ok (mortal period current, rest)) ∧
    (∃ b d, (mortal period current).birth current = some b ∧
      (mortal period current).death current = some d ∧ b ≤ current ∧ current < d ∧
      (∀ c, b ≤ c → c < d → (mortal period current).birth c = some b ∧
        (mortal period current).death c = some d) ∧
      ∀ c, d ≤ c → ∃ b', (mortal period current).birth c = some b' ∧ d ≤ b') ∧
    ∀ input era rest, decode input = .ok (era, rest) →
      ∃ bytes, era.encode = some bytes ∧ input = bytes ++ rest := by
  obtain ⟨k, q, hvalid, hphase, hera⟩ := mortal_eq period current
  rw [hera]
  refine ⟨fun rest => ⟨_, encode_ofBits hvalid, decode_of_encode hvalid rest⟩, ?_,
    fun _ _ _ => encode_of_decode⟩
  obtain ⟨hle, hlt, hsame, hafter⟩ := birth_Mortal (Nat.two_pow_pos (k + 1)) hphase rfl
  generalize (current - _) / _ * _ + _ = b at hle hlt hsame hafter
  have hlong : 2 ^ (k + 1) ≤ 2 ^ 16 :=
    Nat.pow_le_pow_right two_pos (Nat.succ_le_succ hvalid.le)
  have hwindow : ∀ c, b ≤ c → c < b + 2 ^ (k + 1) → (ofBits k q).birth c = some b ∧
      (ofBits k q).death c = some (b + 2 ^ (k + 1)) := by
    intro c hc hc'
    have hbirth := hsame c hc hc'
    refine ⟨hbirth, ?_⟩
    simp only [ofBits, death, hbirth]
    exact if_pos (by omega)
  obtain ⟨hbirth, hdeath⟩ := hwindow current hle hlt
  exact ⟨b, _, hbirth, hdeath, hle, hlt, hwindow, hafter⟩

theorem era_of_block_hundred : mortal 6 100 = Mortal 8 4 ∧
    ∃ b d, (Mortal 8 4).birth 100 = some b ∧ (Mortal 8 4).death 100 = some d ∧ b ≤ 100 ∧ 100 < d := by
  have hera : mortal 6 100 = Mortal 8 4 := by decide
  obtain ⟨b, d, hbirth, hdeath, hle, hlt, -⟩ := (era_windows_and_encoding 6 100 (by decide)).2.1
  rw [hera] at hbirth hdeath
  exact ⟨hera, b, d, hbirth, hdeath, hle, hlt⟩

end Era

end Substrate

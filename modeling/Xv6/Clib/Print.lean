/-
  `printint` of `kernel/printf.c`.

  The digits go to a buffer of 20 characters from the lowest on, and to the console from the last
  one back. The loop counts the room that is left in the buffer; a store behind it ends the model
  without a result.
-/
import Mathlib

namespace Xv6.Clib

def digits : List Char := "0123456789abcdef".toList

/-- The `do` loop: the characters in the buffer, the last one first, and the room behind them. -/
def digitLoop (base : BitVec 64) : ℕ → BitVec 64 → List Char → Option (List Char × ℕ)
  | 0, _, _ => none
  | room + 1, x, buf =>
    let buf := digits.getD (x % base).toNat ' ' :: buf
    if x / base ≠ 0 then digitLoop base room (x / base) buf else some (buf, room)

/-- What `printint` sends to the console. -/
def printint (xx base : BitVec 64) (sign : Bool) : Option (List Char) :=
  let sign := sign && decide (xx.toInt < 0)
  let x := if sign then -xx else xx
  match digitLoop base 20 x [] with
  | none => none
  | some (buf, room) =>
    if sign then if room = 0 then none else some ('-' :: buf)
    else some buf

/-- `ds` are the digits of `v` in base `b`, without leading zeros. -/
structure Numeral (b v : ℕ) (ds : List ℕ) : Prop where
  digit : ∀ d ∈ ds, d < b
  value : ds.foldl (fun v d => v * b + d) 0 = v
  nonempty : ds ≠ []
  leading : ds.head? = some 0 → ds = [0]

theorem Numeral.snoc {b v : ℕ} {ds : List ℕ} (h : Numeral b (v / b) ds) (hv : v / b ≠ 0) :
    Numeral b v (ds ++ [v % b]) where
  digit := by
    have hb : 0 < b := Nat.pos_of_ne_zero fun h0 => hv (by rw [h0, Nat.div_zero])
    intro d hd
    rcases List.mem_append.mp hd with hd | hd
    · exact h.digit d hd
    · rw [List.mem_singleton.mp hd]
      exact Nat.mod_lt _ hb
  value := by
    rw [List.foldl_append, h.value]
    exact Nat.div_add_mod' v b
  nonempty := by simp
  leading := by
    intro h0
    rw [List.head?_append, Option.or_of_isSome (List.isSome_head?.mpr h.nonempty)] at h0
    have hval := h.value
    rw [h.leading h0] at hval
    exact absurd (hval.symm.trans (by simp)) hv

theorem digits_getD {d : ℕ} (hd : d < 16) : digits.getD d ' ' = d.digitChar := by
  have hall : ∀ d : Fin 16, digits.getD d ' ' = (d : ℕ).digitChar := by decide
  exact hall ⟨d, hd⟩

/-- A number of at most `k` digits fits in a buffer with room for them. -/
theorem digitLoop_numeral (base x : BitVec 64) (buf : List Char) {k room : ℕ} (hroom : k ≤ room)
    (hk : 0 < k) (hx : x.toNat < base.toNat ^ k) (hb : base.toNat ≤ 16) :
    ∃ ds, Numeral base.toNat x.toNat ds ∧ ds.length ≤ k ∧
      digitLoop base room x buf = some (ds.map Nat.digitChar ++ buf, room - ds.length) := by
  induction room generalizing x k buf with
  | zero => omega
  | succ room ih =>
    obtain ⟨k, rfl⟩ := Nat.exists_eq_succ_of_ne_zero (Nat.ne_of_gt hk)
    have hq : (x / base).toNat = x.toNat / base.toNat := rfl
    unfold digitLoop
    dsimp only
    split
    · next h0 =>
      have hne : x.toNat / base.toNat ≠ 0 := fun h => h0 (BitVec.eq_of_toNat_eq h)
      have hpos : 0 < base.toNat := Nat.pos_of_ne_zero fun h => hne (by rw [h, Nat.div_zero])
      have hlt : x.toNat / base.toNat < base.toNat ^ k :=
        Nat.div_lt_of_lt_mul (by rwa [← Nat.pow_succ'])
      have hk' : k ≠ 0 := by
        rintro rfl
        rw [Nat.pow_zero] at hlt
        omega
      obtain ⟨ds, hn, hlen, he⟩ := ih (x / base) _ (by omega) (Nat.pos_of_ne_zero hk') hlt
      refine ⟨ds ++ [x.toNat % base.toNat], hn.snoc hne, by simpa using hlen, ?_⟩
      rw [he, BitVec.toNat_umod, digits_getD (by have := Nat.mod_lt x.toNat hpos; omega)]
      simp
    · next h0 =>
      have hlt : x.toNat < base.toNat := by
        have h0 : x.toNat / base.toNat = 0 := by rw [← hq, not_not.mp h0]; rfl
        rcases Nat.div_eq_zero_iff.mp h0 with hb | hlt
        · rw [hb, Nat.zero_pow hk] at hx
          cases hx
        · exact hlt
      have hmod : (x % base).toNat = x.toNat := Nat.mod_eq_of_lt hlt
      refine ⟨[x.toNat], ⟨by simpa using hlt, by simp, nofun, by simp⟩, by simp, ?_⟩
      rw [hmod, digits_getD (by omega)]
      rfl

/-- **Numbers are printed exactly.** In base 10 with or without a sign and in base 16 without one,
`printint` stays inside its buffer and prints the numeral of `xx`, read as `sign` says. -/
theorem printint_exact (xx base : BitVec 64) (sign : Bool)
    (h : base = 10 ∨ base = 16 ∧ sign = false) :
    ∃ ds out, Numeral base.toNat (if sign then xx.toInt.natAbs else xx.toNat) ds ∧
      printint xx base sign = some out ∧ out.length ≤ 20 ∧
      out = (if sign ∧ xx.toInt < 0 then ['-'] else []) ++ ds.map Nat.digitChar := by
  have hlt := xx.isLt
  have hint := xx.toInt_eq_toNat_cond
  unfold printint
  dsimp only
  by_cases hneg : sign = true ∧ xx.toInt < 0
  · obtain ⟨rfl, hneg⟩ := hneg
    obtain rfl : base = 10 := by simpa using h
    have hx : (-xx).toNat = xx.toInt.natAbs := by
      rw [BitVec.toNat_neg]
      omega
    -- 19 digits leave room for the sign
    obtain ⟨ds, hn, hlen, he⟩ := digitLoop_numeral 10 (-xx) [] (Nat.le_succ 19)
      (by decide) (Nat.lt_of_le_of_lt (m := 2 ^ 63) (by omega) (by decide)) (by decide)
    simp only [hneg, decide_true, Bool.and_true, ↓reduceIte, he, and_self, List.append_nil]
    refine ⟨ds, _, hx ▸ hn, if_neg (by omega), ?_, rfl⟩
    rw [List.length_cons, List.length_map]
    exact Nat.succ_le_succ hlen
  · have hs : (sign && decide (xx.toInt < 0)) = false := by simpa using hneg
    have hx : (if sign then xx.toInt.natAbs else xx.toNat) = xx.toNat := by
      split
      · next hsign =>
        have : ¬xx.toInt < 0 := fun h => hneg ⟨hsign, h⟩
        omega
      · rfl
    have hbase : 2 ^ 64 < base.toNat ^ 20 ∧ base.toNat ≤ 16 := by
      rcases h with rfl | ⟨rfl, _⟩ <;> decide
    obtain ⟨ds, hn, hlen, he⟩ := digitLoop_numeral base xx [] (Nat.le_refl 20)
      (by decide) (Nat.lt_trans hlt hbase.1) hbase.2
    simp only [hs, Bool.false_eq_true, ↓reduceIte, he, hneg, hx, List.append_nil, List.nil_append]
    exact ⟨ds, _, hn, rfl, by rwa [List.length_map], rfl⟩

theorem printint_exact_min :
    ∃ ds out, Numeral (10 : BitVec 64).toNat (BitVec.intMin 64).toInt.natAbs ds ∧
    printint (BitVec.intMin 64) 10 true = some out ∧ out.length ≤ 20 ∧
    out = ['-'] ++ ds.map Nat.digitChar :=
  printint_exact (BitVec.intMin 64) 10 true (.inl rfl)

end Xv6.Clib

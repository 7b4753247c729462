import Qdma.CtxtFields

/-!
# The vector map of a queue

The two queues of an index share a vector map register.  `hw_prog_qid2vec` reads it, replaces
the vector of one direction and sets that direction's coalesce-enable bit when interrupts are
aggregated.  Nothing clears the bit: it stays as an earlier call, or an earlier load of the
driver, has left it.

* `getLsbD_hwProgQid2vec` is the call bit by bit; everything here is read off it.
* `VecMapExact` is what a call is for, and `vec_map_exact_iff` says for which registers it
  holds.
-/

namespace Qdma

open Lib

/-! ## The places -/

/-- `C2H_QID2VEC_MAP_QID_C2H_VEC` and `C2H_QID2VEC_MAP_QID_H2C_VEC`. -/
def qid2vecMapVec (c2h : Bool) : BitField := if c2h then ⟨0, 8⟩ else ⟨9, 8⟩

/-- `C2H_QID2VEC_MAP_QID_C2H_COALEN` and `C2H_QID2VEC_MAP_QID_H2C_COALEN`. -/
def qid2vecMapCoalen (c2h : Bool) : BitField := if c2h then ⟨8, 1⟩ else ⟨18, 1⟩

/-- The coalesce-enable bit of a direction. -/
def coalenBit (v : BitVec 32) (c2h : Bool) : Bool := v.getLsbD (qid2vecMapCoalen c2h).shift

/-! ## What a call is for -/

/-- After the call the direction reads what was meant and the other one is as before; calls
for the two directions can be made in either order, and a call made again changes nothing. -/
structure VecMapExact (v : BitVec 32) (c2h : Bool) (intrId : ℕ) (intrCoalEn : Bool) : Prop where
  vec : (qid2vecMapVec c2h).get (hwProgQid2vec v c2h intrId intrCoalEn).toNat = intrId
  coalen : (qid2vecMapCoalen c2h).get (hwProgQid2vec v c2h intrId intrCoalEn).toNat =
    intrCoalEn.toNat
  other : ∀ f ∈ [qid2vecMapVec (!c2h), qid2vecMapCoalen (!c2h)],
    f.get (hwProgQid2vec v c2h intrId intrCoalEn).toNat = f.get v.toNat
  commutes : ∀ intrId' < 256, ∀ intrCoalEn',
    hwProgQid2vec (hwProgQid2vec v c2h intrId intrCoalEn) (!c2h) intrId' intrCoalEn' =
      hwProgQid2vec (hwProgQid2vec v (!c2h) intrId' intrCoalEn') c2h intrId intrCoalEn
  again : hwProgQid2vec (hwProgQid2vec v c2h intrId intrCoalEn) c2h intrId intrCoalEn =
    hwProgQid2vec v c2h intrId intrCoalEn

/-! ## The call, bit by bit -/

theorem getLsbD_fieldMask (k shift i : ℕ) :
    (ctxtField (2 ^ k - 1) shift).getLsbD i =
      (decide (i < 32) && decide (shift ≤ i) && decide (i < shift + k)) := by
  rw [ctxtField, BitVec.getLsbD_shiftLeft, getLsbD_mask]
  by_cases hle : shift ≤ i
  · have hlow : ¬ i < shift := Nat.not_lt.mpr hle
    by_cases hlt : i < shift + k
    · have hin : i - shift < k := by omega
      by_cases hreg : i < 32
      · have hreg' : i - shift < 32 := by omega
        simp [hle, hlt, hin, hlow, hreg, hreg']
      · simp [hreg]
    · have hout : ¬ i - shift < k := by omega
      simp [hlt, hout]
  · have hlow : i < shift := Nat.lt_of_not_le hle
    simp [hle, hlow]

/-- A field is cleared and gets a value that fits. -/
theorem getLsbD_replaceField (v : BitVec 32) {k n shift i : ℕ} (hn : n < 2 ^ k) (hi : i < 32) :
    ((v &&& ~~~ctxtField (2 ^ k - 1) shift) ||| ctxtField n shift).getLsbD i =
      if shift ≤ i ∧ i < shift + k then n.testBit (i - shift) else v.getLsbD i := by
  rw [BitVec.getLsbD_or, BitVec.getLsbD_and, BitVec.getLsbD_not, getLsbD_fieldMask]
  split
  · rename_i hin
    rw [ctxtField, BitVec.getLsbD_shiftLeft, BitVec.getLsbD_ofNat]
    have hlow : ¬ i < shift := by omega
    have hreg : i - shift < 32 := by omega
    simp [hi, hin.1, hin.2, hlow, hreg]
  · rename_i hout
    by_cases hlow : i < shift
    · rw [ctxtField_low hlow]
      have hle : ¬ shift ≤ i := by omega
      simp [hi, hle]
    · rw [ctxtField_high hn (by omega)]
      have hge : ¬ i < shift + k := by omega
      simp [hi, hge]

/-- The vector's field is replaced; the bit is joined with the flag. -/
theorem hwProgQid2vec_eq (v : BitVec 32) (c2h : Bool) (intrId : ℕ) (intrCoalEn : Bool) :
    hwProgQid2vec v c2h intrId intrCoalEn =
      ((v &&& ~~~ctxtField (2 ^ 8 - 1) (qid2vecMapVec c2h).shift) |||
          ctxtField intrId (qid2vecMapVec c2h).shift) |||
        if intrCoalEn then ctxtField 1 (qid2vecMapCoalen c2h).shift else 0#32 := by
  have hmask : (2 ^ 8 - 1 : ℕ) = 0xFF := rfl
  rw [hmask]
  cases intrCoalEn with
  | true => cases c2h <;> rfl
  | false =>
      rw [if_neg Bool.false_ne_true, BitVec.or_zero]
      cases c2h <;> rfl

/-- The bit that joins the register. -/
theorem getLsbD_coalen (c2h intrCoalEn : Bool) {i : ℕ} (hi : i < 32) :
    (if intrCoalEn then ctxtField 1 (qid2vecMapCoalen c2h).shift else 0#32).getLsbD i =
      (intrCoalEn && decide (i = (qid2vecMapCoalen c2h).shift)) := by
  cases intrCoalEn with
  | false => exact BitVec.getLsbD_zero
  | true =>
      have hmask := getLsbD_fieldMask 1 (qid2vecMapCoalen c2h).shift i
      rw [if_pos rfl, Bool.true_and]
      refine hmask.trans ?_
      rw [decide_eq_true hi, Bool.true_and, ← Bool.decide_and]
      exact decide_eq_decide.mpr (by omega)

/-- **The call, bit by bit.** -/
theorem getLsbD_hwProgQid2vec (v : BitVec 32) (c2h : Bool) {intrId i : ℕ} (hid : intrId < 256)
    (intrCoalEn : Bool) (hi : i < 32) :
    (hwProgQid2vec v c2h intrId intrCoalEn).getLsbD i =
      if (qid2vecMapVec c2h).shift ≤ i ∧ i < (qid2vecMapVec c2h).shift + 8 then
        intrId.testBit (i - (qid2vecMapVec c2h).shift)
      else v.getLsbD i || (intrCoalEn && decide (i = (qid2vecMapCoalen c2h).shift)) := by
  rw [hwProgQid2vec_eq, BitVec.getLsbD_or, getLsbD_replaceField v hid hi,
    getLsbD_coalen c2h intrCoalEn hi]
  split
  · rename_i hin
    -- the bit lies above the vector's field
    have hne : i ≠ (qid2vecMapCoalen c2h).shift := by
      cases c2h
      · exact fun heq => absurd hin.2 (by rw [heq]; decide)
      · exact fun heq => absurd hin.2 (by rw [heq]; decide)
    rw [decide_eq_false hne, Bool.and_false, Bool.or_false]
  · rfl

/-! ## A register that has it already -/

/-- The register reads the vector for the direction, and the coalesce-enable bit is set if it is
asked for.  A vector is not cut to its field: what is above 255 goes to the bits beyond. -/
structure VecThere (v : BitVec 32) (c2h : Bool) (intrId : ℕ) (intrCoalEn : Bool) : Prop where
  vec : (qid2vecMapVec c2h).get v.toNat = intrId % 2 ^ 8
  beyond : ∀ i, 8 ≤ i → (qid2vecMapVec c2h).shift + i < 32 → intrId.testBit i = true →
    v.getLsbD ((qid2vecMapVec c2h).shift + i) = true
  coalen : intrCoalEn = true → coalenBit v c2h = true

/-- The call bit by bit, for a vector of any size. -/
theorem getLsbD_hwProgQid2vec_or (v : BitVec 32) (c2h : Bool) (intrId : ℕ) (intrCoalEn : Bool)
    {i : ℕ} (hi : i < 32) :
    (hwProgQid2vec v c2h intrId intrCoalEn).getLsbD i =
      ((v.getLsbD i && !(decide ((qid2vecMapVec c2h).shift ≤ i) &&
            decide (i < (qid2vecMapVec c2h).shift + 8)) ||
          (decide ((qid2vecMapVec c2h).shift ≤ i) &&
            intrId.testBit (i - (qid2vecMapVec c2h).shift))) ||
        (intrCoalEn && decide (i = (qid2vecMapCoalen c2h).shift))) := by
  rw [hwProgQid2vec_eq, BitVec.getLsbD_or, BitVec.getLsbD_or, BitVec.getLsbD_and,
    BitVec.getLsbD_not, getLsbD_fieldMask]
  have hfield : (ctxtField intrId (qid2vecMapVec c2h).shift).getLsbD i =
      (decide ((qid2vecMapVec c2h).shift ≤ i) && intrId.testBit (i - (qid2vecMapVec c2h).shift)) := by
    rw [ctxtField, BitVec.getLsbD_shiftLeft, BitVec.getLsbD_ofNat]
    by_cases hle : (qid2vecMapVec c2h).shift ≤ i
    · have hlow : ¬ i < (qid2vecMapVec c2h).shift := Nat.not_lt.mpr hle
      have hreg : i - (qid2vecMapVec c2h).shift < 32 := by omega
      simp [hi, hle, hlow, hreg]
    · have hlow : i < (qid2vecMapVec c2h).shift := Nat.lt_of_not_le hle
      simp [hle, hlow]
  rw [hfield, getLsbD_coalen c2h intrCoalEn hi, decide_eq_true hi, Bool.true_and, Bool.true_and]

/-- **A call that changes nothing** is one whose vector and bit are there already. -/
theorem hwProgQid2vec_same_iff (v : BitVec 32) (c2h : Bool) (intrId : ℕ) (intrCoalEn : Bool) :
    hwProgQid2vec v c2h intrId intrCoalEn = v ↔ VecThere v c2h intrId intrCoalEn := by
  have hwidth : (qid2vecMapVec c2h).width = 8 := by cases c2h <;> rfl
  have hshift : (qid2vecMapVec c2h).shift ≤ 9 := by cases c2h <;> decide
  have hcoal : (qid2vecMapCoalen c2h).shift < 32 ∧
      ¬ (qid2vecMapCoalen c2h).shift < (qid2vecMapVec c2h).shift + 8 := by
    cases c2h <;> decide
  constructor
  · intro heq
    have hbit := fun i (hi : i < 32) => getLsbD_hwProgQid2vec_or v c2h intrId intrCoalEn hi
    rw [heq] at hbit
    refine ⟨?_, fun i hlow hi hset => ?_, fun hon => ?_⟩
    · apply Nat.eq_of_testBit_eq
      intro i
      rw [BitField.testBit_get, BitVec.testBit_toNat, hwidth, Nat.testBit_mod_two_pow]
      by_cases hi : i < 8
      · have hne : (qid2vecMapVec c2h).shift + i ≠ (qid2vecMapCoalen c2h).shift := by omega
        have hat := hbit ((qid2vecMapVec c2h).shift + i) (by omega)
        simpa [hi, hne] using hat
      · simp [hi]
    · have hat := hbit ((qid2vecMapVec c2h).shift + i) hi
      simpa [hset] using hat
    · have hat := hbit (qid2vecMapCoalen c2h).shift hcoal.1
      unfold coalenBit
      rw [hat, hon]
      simp
  · rintro ⟨hvec, hbeyond, hcoalen⟩
    apply BitVec.eq_of_getLsbD_eq
    intro i hi
    rw [getLsbD_hwProgQid2vec_or v c2h intrId intrCoalEn hi]
    have hjoin : ∀ a b : Bool, (b = true → a = true) → (a || b) = a := by decide
    by_cases hin : (qid2vecMapVec c2h).shift ≤ i ∧ i < (qid2vecMapVec c2h).shift + 8
    · -- a bit of the vector
      have hne : i ≠ (qid2vecMapCoalen c2h).shift := by omega
      have hat : ((qid2vecMapVec c2h).get v.toNat).testBit (i - (qid2vecMapVec c2h).shift) =
          (intrId % 2 ^ 8).testBit (i - (qid2vecMapVec c2h).shift) := by rw [hvec]
      rw [BitField.testBit_get, BitVec.testBit_toNat, hwidth, Nat.testBit_mod_two_pow,
        Nat.add_sub_cancel' hin.1, decide_eq_true (show i - (qid2vecMapVec c2h).shift < 8 by omega),
        Bool.true_and, Bool.true_and] at hat
      simp [hin.1, hin.2, hne, hat]
    · have hold : (v.getLsbD i && !(decide ((qid2vecMapVec c2h).shift ≤ i) &&
          decide (i < (qid2vecMapVec c2h).shift + 8))) = v.getLsbD i := by
        rw [← Bool.decide_and, decide_eq_false hin, Bool.not_false, Bool.and_true]
      have hspill : (decide ((qid2vecMapVec c2h).shift ≤ i) &&
          intrId.testBit (i - (qid2vecMapVec c2h).shift)) = true → v.getLsbD i = true := by
        rw [Bool.and_eq_true, decide_eq_true_eq]
        rintro ⟨hle, hset⟩
        have hat := hbeyond _ (by omega) (by omega) hset
        rwa [Nat.add_sub_cancel' hle] at hat
      have hbit : (intrCoalEn && decide (i = (qid2vecMapCoalen c2h).shift)) = true →
          v.getLsbD i = true := by
        rw [Bool.and_eq_true, decide_eq_true_eq]
        rintro ⟨hon, rfl⟩
        exact hcoalen hon
      rw [hold, hjoin _ _ hspill, hjoin _ _ hbit]

/-! ## The fields -/

section Fields

variable (v : BitVec 32) (c2h intrCoalEn : Bool) {intrId : ℕ} (hid : intrId < 256)

include hid

theorem vec_hwProgQid2vec :
    (qid2vecMapVec c2h).get (hwProgQid2vec v c2h intrId intrCoalEn).toNat = intrId := by
  have hwidth : (qid2vecMapVec c2h).width = 8 := by cases c2h <;> rfl
  have hshift : (qid2vecMapVec c2h).shift ≤ 9 := by cases c2h <;> decide
  apply Nat.eq_of_testBit_eq
  intro i
  rw [BitField.testBit_get, BitVec.testBit_toNat, hwidth]
  by_cases hi : i < 8
  · rw [getLsbD_hwProgQid2vec v c2h hid intrCoalEn (by omega), if_pos (by omega),
      Nat.add_sub_cancel_left, decide_eq_true hi, Bool.true_and]
  · have hzero : intrId.testBit i = false := by
      refine Nat.testBit_lt_two_pow (lt_of_lt_of_le hid ?_)
      exact Nat.pow_le_pow_right Nat.two_pos (Nat.le_of_not_lt hi)
    rw [decide_eq_false hi, Bool.false_and, hzero]

/-- The bit is set by the call or was set before. -/
theorem coalenBit_hwProgQid2vec :
    coalenBit (hwProgQid2vec v c2h intrId intrCoalEn) c2h = (coalenBit v c2h || intrCoalEn) := by
  have hshift : (qid2vecMapCoalen c2h).shift < 32 := by cases c2h <;> decide
  have hout : ¬ ((qid2vecMapVec c2h).shift ≤ (qid2vecMapCoalen c2h).shift ∧
      (qid2vecMapCoalen c2h).shift < (qid2vecMapVec c2h).shift + 8) := by
    cases c2h <;> decide
  unfold coalenBit
  rw [getLsbD_hwProgQid2vec v c2h hid intrCoalEn hshift, if_neg hout, decide_eq_true rfl,
    Bool.and_true]

/-- A bit of neither field is left alone. -/
theorem getLsbD_hwProgQid2vec_of_ne {i : ℕ}
    (hvec : ¬ ((qid2vecMapVec c2h).shift ≤ i ∧ i < (qid2vecMapVec c2h).shift + 8))
    (hcoal : i ≠ (qid2vecMapCoalen c2h).shift) :
    (hwProgQid2vec v c2h intrId intrCoalEn).getLsbD i = v.getLsbD i := by
  by_cases hi : i < 32
  · rw [getLsbD_hwProgQid2vec v c2h hid intrCoalEn hi, if_neg hvec, decide_eq_false hcoal,
      Bool.and_false, Bool.or_false]
  · rw [BitVec.getLsbD_of_ge _ _ (Nat.le_of_not_lt hi), BitVec.getLsbD_of_ge _ _ (Nat.le_of_not_lt hi)]

/-- A field beside the two reads as before. -/
theorem get_hwProgQid2vec_of_apart {f : BitField} (hvec : f.Apart (qid2vecMapVec c2h))
    (hcoal : f.Apart (qid2vecMapCoalen c2h)) :
    f.get (hwProgQid2vec v c2h intrId intrCoalEn).toNat = f.get v.toNat := by
  have hwidth : (qid2vecMapVec c2h).width = 8 := by cases c2h <;> rfl
  have hone : (qid2vecMapCoalen c2h).width = 1 := by cases c2h <;> rfl
  unfold BitField.Apart at hvec hcoal
  rw [hwidth] at hvec
  rw [hone] at hcoal
  apply Nat.eq_of_testBit_eq
  intro i
  rw [BitField.testBit_get, BitField.testBit_get, BitVec.testBit_toNat, BitVec.testBit_toNat]
  by_cases hi : i < f.width
  · rw [getLsbD_hwProgQid2vec_of_ne v c2h intrCoalEn hid (by omega) (by omega)]
  · rw [decide_eq_false hi, Bool.false_and, Bool.false_and]

end Fields

/-- The two directions have different fields. -/
theorem qid2vecMap_apart (c2h : Bool) {f : BitField}
    (hf : f ∈ [qid2vecMapVec (!c2h), qid2vecMapCoalen (!c2h)]) :
    f.Apart (qid2vecMapVec c2h) ∧ f.Apart (qid2vecMapCoalen c2h) := by
  cases c2h <;> revert f <;> decide

/-! ## Two calls -/

/-- The register after calls for both directions does not tell which came first. -/
theorem hwProgQid2vec_comm (v : BitVec 32) (c2h : Bool) {m n : ℕ} (hm : m < 256) (hn : n < 256)
    (a b : Bool) :
    hwProgQid2vec (hwProgQid2vec v c2h m a) (!c2h) n b =
      hwProgQid2vec (hwProgQid2vec v (!c2h) n b) c2h m a := by
  apply BitVec.eq_of_getLsbD_eq
  intro i hi
  rw [getLsbD_hwProgQid2vec _ _ hn b hi, getLsbD_hwProgQid2vec _ _ hm a hi,
    getLsbD_hwProgQid2vec _ _ hm a hi, getLsbD_hwProgQid2vec _ _ hn b hi]
  have hvec : ¬ (((qid2vecMapVec c2h).shift ≤ i ∧ i < (qid2vecMapVec c2h).shift + 8) ∧
      ((qid2vecMapVec (!c2h)).shift ≤ i ∧ i < (qid2vecMapVec (!c2h)).shift + 8)) := by
    cases c2h
    · change ¬ ((9 ≤ i ∧ i < 9 + 8) ∧ (0 ≤ i ∧ i < 0 + 8))
      omega
    · change ¬ ((0 ≤ i ∧ i < 0 + 8) ∧ (9 ≤ i ∧ i < 9 + 8))
      omega
  have hcoal : ∀ d : Bool, (qid2vecMapVec d).shift ≤ i ∧ i < (qid2vecMapVec d).shift + 8 →
      i ≠ (qid2vecMapCoalen (!d)).shift := by
    intro d hin heq
    subst heq
    revert hin
    cases d <;> decide
  by_cases hc : (qid2vecMapVec c2h).shift ≤ i ∧ i < (qid2vecMapVec c2h).shift + 8
  · have hne := hcoal c2h hc
    rw [if_pos hc, if_pos hc, if_neg fun h => hvec ⟨hc, h⟩, decide_eq_false hne, Bool.and_false,
      Bool.or_false]
  · rw [if_neg hc, if_neg hc]
    by_cases ho : (qid2vecMapVec (!c2h)).shift ≤ i ∧ i < (qid2vecMapVec (!c2h)).shift + 8
    · have hne := hcoal (!c2h) ho
      rw [Bool.not_not] at hne
      rw [if_pos ho, if_pos ho, decide_eq_false hne, Bool.and_false, Bool.or_false]
    · rw [if_neg ho, if_neg ho, Bool.or_assoc, Bool.or_assoc]
      congr 1
      exact Bool.or_comm _ _

theorem hwProgQid2vec_again (v : BitVec 32) (c2h : Bool) {m : ℕ} (hm : m < 256) (a : Bool) :
    hwProgQid2vec (hwProgQid2vec v c2h m a) c2h m a = hwProgQid2vec v c2h m a := by
  apply BitVec.eq_of_getLsbD_eq
  intro i hi
  rw [getLsbD_hwProgQid2vec _ _ hm a hi, getLsbD_hwProgQid2vec _ _ hm a hi]
  split
  · rfl
  · rw [Bool.or_assoc, Bool.or_self]

/-- A call on a queue's register: the direction, the vector and the flag. -/
structure VecCall where
  c2h : Bool
  intrId : ℕ
  intrCoalEn : Bool

/-- **The bit sticks**: after any calls for either direction it is set if it was set before
or a call for its direction has set it. -/
theorem coalenBit_calls (c2h : Bool) (calls : List VecCall) (hid : ∀ c ∈ calls, c.intrId < 256)
    (v : BitVec 32) :
    coalenBit (calls.foldl (fun v c => hwProgQid2vec v c.c2h c.intrId c.intrCoalEn) v) c2h =
      (coalenBit v c2h || calls.any fun c => c.c2h == c2h && c.intrCoalEn) := by
  induction calls generalizing v with
  | nil => rw [List.foldl_nil, List.any_nil, Bool.or_false]
  | cons c calls ih =>
      have hc := hid c List.mem_cons_self
      rw [List.foldl_cons, ih (fun d hd => hid d (List.mem_cons_of_mem _ hd)), List.any_cons,
        ← Bool.or_assoc]
      congr 1
      by_cases hdir : c.c2h = c2h
      · rw [← hdir, coalenBit_hwProgQid2vec v c.c2h c.intrCoalEn hc, beq_self_eq_true,
          Bool.true_and]
      · have hother : c2h = !c.c2h := Bool.eq_not.mpr (Ne.symm hdir)
        have hout : ¬ ((qid2vecMapVec c.c2h).shift ≤ (qid2vecMapCoalen c2h).shift ∧
            (qid2vecMapCoalen c2h).shift < (qid2vecMapVec c.c2h).shift + 8) := by
          rw [hother]
          cases c.c2h <;> decide
        have hne : (qid2vecMapCoalen c2h).shift ≠ (qid2vecMapCoalen c.c2h).shift := by
          rw [hother]
          cases c.c2h <;> decide
        unfold coalenBit
        rw [getLsbD_hwProgQid2vec_of_ne v c.c2h c.intrCoalEn hc hout hne, beq_false_of_ne hdir,
          Bool.false_and, Bool.or_false]

/-! ## When the call is exact -/

/-- The field of the bit reads the bit. -/
theorem get_qid2vecMapCoalen (v : BitVec 32) (c2h : Bool) :
    (qid2vecMapCoalen c2h).get v.toNat = (coalenBit v c2h).toNat := by
  have hone : (qid2vecMapCoalen c2h).width = 1 := by cases c2h <;> rfl
  unfold coalenBit
  apply Nat.eq_of_testBit_eq
  intro i
  rw [BitField.testBit_get, BitVec.testBit_toNat, hone]
  cases i with
  | zero => cases v.getLsbD (qid2vecMapCoalen c2h).shift <;> rfl
  | succ i =>
      have hout : ¬ i + 1 < 1 := by omega
      have hpow : 2 ^ 1 ≤ 2 ^ (i + 1) := Nat.pow_le_pow_right Nat.two_pos (Nat.le_add_left 1 i)
      rw [decide_eq_false hout, Bool.false_and,
        Nat.testBit_lt_two_pow ((Bool.toNat_lt _).trans_le hpow)]

/-- **The vector map.**  A call does what it is for exactly where the coalesce-enable bit of
its direction is not set already, or is to be set. -/
theorem vec_map_exact_iff (v : BitVec 32) (c2h : Bool) (intrId : ℕ) (hid : intrId < 256)
    (intrCoalEn : Bool) :
    VecMapExact v c2h intrId intrCoalEn ↔ (coalenBit v c2h = true → intrCoalEn = true) := by
  have hcoalen : (qid2vecMapCoalen c2h).get (hwProgQid2vec v c2h intrId intrCoalEn).toNat =
      (coalenBit v c2h || intrCoalEn).toNat := by
    rw [get_qid2vecMapCoalen, coalenBit_hwProgQid2vec v c2h intrCoalEn hid]
  constructor
  · intro h hset
    have hread := h.coalen
    rw [hcoalen, hset, Bool.true_or] at hread
    cases intrCoalEn with
    | true => rfl
    | false => cases hread
  · intro hclear
    refine ⟨vec_hwProgQid2vec v c2h intrCoalEn hid, ?_, ?_, ?_, ?_⟩
    · rw [hcoalen]
      cases hbit : coalenBit v c2h with
      | false => rw [Bool.false_or]
      | true => rw [hclear hbit, Bool.or_self]
    · intro f hf
      obtain ⟨hvec, hcoal⟩ := qid2vecMap_apart c2h hf
      exact get_hwProgQid2vec_of_apart v c2h intrCoalEn hid hvec hcoal
    · exact fun n hn b => hwProgQid2vec_comm v c2h hid hn intrCoalEn b
    · exact hwProgQid2vec_again v c2h hid intrCoalEn

/-- A register whose bits are all set, vector 5 with aggregation. -/
theorem vec_map_exact_aggregated : VecMapExact 0xFFFFFFFF#32 true 5 true :=
  (vec_map_exact_iff 0xFFFFFFFF#32 true 5 (by decide) true).mpr fun _ => rfl

/-- The driver was loaded with aggregation before and is loaded without. -/
theorem vec_map_stale :
    ¬ ∀ (v : BitVec 32) (c2h : Bool) (intrId : ℕ) (intrCoalEn : Bool), intrId < 256 →
      VecMapExact v c2h intrId intrCoalEn := by
  intro hall
  have hread := (hall 0x100#32 true 5 false (by decide)).coalen
  revert hread
  decide

end Qdma

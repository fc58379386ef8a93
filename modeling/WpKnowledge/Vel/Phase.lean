import WpKnowledge.Foundation.FoldExcept
import WpKnowledge.Vel.Eval

/-!
# The slots of a period

A period is folded into slots of one bucket each; the last one is shorter if the bucket
does not divide the period.  The label of the next slot is found by folding the time one
bucket later.  That is the next slot unless the last, shorter slot is jumped over.

Main results:

- Theorems {lit}`fold_add_of_lt` and {lit}`fold_add_of_le`: where the time one bucket later
  is folded to.
- Theorem {lit}`phase_next_follows_iff`: exactly when {lit}`phase_next` names the slot after
  that of {lit}`phase_now`.
-/

namespace WpKnowledge.Vel

open Foundation

/-! ## Folding -/

/-- The slot of a time. -/
def fold (period bucket t : Nat) : Nat :=
  t % period / bucket

/-- The number of slots of a period, the last one rounded up. -/
def slots (period bucket : Nat) : Nat :=
  (period + bucket - 1) / bucket

/-- All slots but the last one are full. -/
theorem slots_bounds {period bucket : Nat} (hbucket : 0 < bucket) (hle : bucket ≤ period) :
    0 < slots period bucket ∧ (slots period bucket - 1) * bucket < period ∧
      period ≤ slots period bucket * bucket := by
  have hdiv := Nat.div_add_mod (period + bucket - 1) bucket
  have hmod := Nat.mod_lt (period + bucket - 1) hbucket
  have hpos : 0 < slots period bucket := Nat.div_pos (by omega) hbucket
  have hcomm : bucket * slots period bucket = slots period bucket * bucket := Nat.mul_comm _ _
  have hpred : (slots period bucket - 1) * bucket = slots period bucket * bucket - bucket :=
    Nat.sub_one_mul _ _
  rw [slots] at hcomm hpred hpos
  unfold slots
  exact ⟨hpos, by omega, by omega⟩

section Folding

variable {period bucket t n : Nat}

/-- The slot of a time is one of the slots. -/
theorem fold_lt (hbucket : 0 < bucket) (hperiod : 0 < period) (hn : period ≤ n * bucket) :
    fold period bucket t < n := by
  have hrest := Nat.mod_lt t hperiod
  exact (Nat.div_lt_iff_lt_mul hbucket).mpr (by omega)

/-- Within the period the time one bucket later is in the next slot. -/
theorem fold_add_of_lt (hbucket : 0 < bucket) (h : t % period + bucket < period) :
    fold period bucket (t + bucket) = fold period bucket t + 1 := by
  have hmod : (t + bucket) % period = t % period + bucket := by
    rw [← Nat.mod_add_mod, Nat.mod_eq_of_lt h]
  rw [fold, hmod, Nat.add_div_right _ hbucket, fold]

/-- Behind the end of the period the time one bucket later is in the first slot. -/
theorem fold_add_of_le (hbucket : 0 < bucket) (hle : bucket ≤ period)
    (h : period ≤ t % period + bucket) : fold period bucket (t + bucket) = 0 := by
  have hrest := Nat.mod_lt t (Nat.lt_of_lt_of_le hbucket hle)
  have hmod : (t + bucket) % period = t % period + bucket - period := by
    rw [← Nat.mod_add_mod, Nat.mod_eq_sub_mod h, Nat.mod_eq_of_lt (by omega)]
  rw [fold, hmod]
  exact Nat.div_eq_of_lt (by omega)

/-- The last slot is where all full slots are over. -/
theorem fold_eq_last_iff (hbucket : 0 < bucket) (hpos : 0 < n) (hlt : fold period bucket t < n) :
    fold period bucket t + 1 = n ↔ (n - 1) * bucket ≤ t % period := by
  rw [← Nat.le_div_iff_mul_le hbucket]
  unfold fold at hlt ⊢
  omega

/-- One bucket later the slot is the next one, the first one after the last one, exactly
if the time is at least one bucket from the end of the period or in the last slot. -/
theorem fold_add_eq_iff (hbucket : 0 < bucket) (hle : bucket ≤ period) (hpos : 0 < n)
    (hn : period ≤ n * bucket) :
    fold period bucket (t + bucket) = (fold period bucket t + 1) % n ↔
      t % period + bucket < period ∨ (n - 1) * bucket ≤ t % period := by
  have hslot := fold_lt (t := t) hbucket (Nat.lt_of_lt_of_le hbucket hle) hn
  rw [← fold_eq_last_iff hbucket hpos hslot]
  rcases Nat.lt_or_ge (t % period + bucket) period with hin | hout
  · have hnext := fold_add_of_lt hbucket hin
    have hnextSlot := fold_lt (t := t + bucket) hbucket (Nat.lt_of_lt_of_le hbucket hle) hn
    rw [hnext] at hnextSlot
    rw [hnext, Nat.mod_eq_of_lt hnextSlot]
    exact ⟨fun _ => .inl hin, fun _ => rfl⟩
  · rw [fold_add_of_le hbucket hle hout]
    constructor
    · intro hzero
      right
      -- only the last slot is followed by the first one
      by_contra hne
      rw [Nat.mod_eq_of_lt (by omega)] at hzero
      omega
    · rintro (hin | hlast)
      · omega
      · rw [hlast, Nat.mod_self]

end Folding

/-! ## Calls -/

theorem toNat_saturatingMul {a b : UInt64} (h : a.toNat * b.toNat < UInt64.size) :
    (saturatingMul a b).toNat = a.toNat * b.toNat := by
  rw [saturatingMul, if_pos h, UInt64.toNat_mul, Nat.mod_eq_of_lt h]

theorem toNat_saturatingAdd {a b : UInt64} (h : a.toNat + b.toNat < UInt64.size) :
    (saturatingAdd a b).toNat = a.toNat + b.toNat := by
  rw [saturatingAdd, if_pos h, UInt64.toNat_add, Nat.mod_eq_of_lt h]

/-- Seconds in nanoseconds. -/
def nanos (seconds : UInt64) : Nat :=
  seconds.toNat * 1000000000

/-- The value of a call, if its arguments are accepted and no number is too large. -/
theorem evalDef_phaseBucket {name label : String} {periodS bucketS nowNs : UInt64}
    {offsetSlots : Int64} {var : String × String} (hoffset : offsetSlots = 0 ∨ offsetSlots = 1)
    (hperiod : nanos periodS < UInt64.size)
    (hlater : nowNs.toNat + nanos bucketS < UInt64.size)
    (h : evalDef nowNs (.phaseBucket name periodS bucketS offsetSlots label) = .ok var) :
    0 < bucketS.toNat ∧ bucketS.toNat ≤ periodS.toNat ∧
      var = (name, label ++ toString (fold (nanos periodS) (nanos bucketS)
        (nowNs.toNat + offsetSlots.toInt.toNat * nanos bucketS))) := by
  have hbucket : nanos bucketS < UInt64.size := by omega
  have hperiodNs : (saturatingMul periodS 1000000000).toNat = nanos periodS :=
    toNat_saturatingMul hperiod
  have hbucketNs : (saturatingMul bucketS 1000000000).toNat = nanos bucketS :=
    toNat_saturatingMul hbucket
  obtain ⟨hforward, hword, hstep⟩ : 0 ≤ offsetSlots ∧
      offsetSlots.toUInt64.toNat = offsetSlots.toInt.toNat ∧
      offsetSlots.toInt.toNat * nanos bucketS ≤ nanos bucketS := by
    rcases hoffset with rfl | rfl
    · exact ⟨by decide, by decide, Nat.le_trans (Nat.le_of_eq (Nat.zero_mul _)) (Nat.zero_le _)⟩
    · exact ⟨by decide, by decide, Nat.le_of_eq (Nat.one_mul _)⟩
  have hsteps : (saturatingMul offsetSlots.toUInt64 (saturatingMul bucketS 1000000000)).toNat =
      offsetSlots.toInt.toNat * nanos bucketS := by
    rw [toNat_saturatingMul, hword, hbucketNs]
    rw [hword, hbucketNs]
    omega
  have ht : (saturatingAdd nowNs
      (saturatingMul offsetSlots.toUInt64 (saturatingMul bucketS 1000000000))).toNat =
        nowNs.toNat + offsetSlots.toInt.toNat * nanos bucketS := by
    rw [toNat_saturatingAdd, hsteps]
    rw [hsteps]
    omega
  rw [evalDef] at h
  simp only [hforward, if_true] at h
  split_ifs at h with hbad
  rw [not_or, not_or, UInt64.lt_iff_toNat_lt, ← UInt64.toNat_inj, ← UInt64.toNat_inj, hperiodNs,
    hbucketNs] at hbad
  have hslot : (saturatingAdd nowNs (saturatingMul offsetSlots.toUInt64
      (saturatingMul bucketS 1000000000)) % saturatingMul periodS 1000000000 /
        saturatingMul bucketS 1000000000).toNat =
      fold (nanos periodS) (nanos bucketS)
        (nowNs.toNat + offsetSlots.toInt.toNat * nanos bucketS) := by
    rw [UInt64.toNat_div, UInt64.toNat_mod, ht, hperiodNs, hbucketNs, fold]
  have hzero : (0 : UInt64).toNat = 0 := rfl
  rw [hzero] at hbad
  refine ⟨?_, ?_, ?_⟩
  · unfold nanos at hbad
    omega
  · unfold nanos at hbad
    omega
  · rw [← hslot]
    exact (Except.ok.inj h).symm

/-- The values of an evaluated code block belong to its definitions. -/
theorem getElem?_of_eval {isPrintable : Char → Bool} {code : String} {nowNs : UInt64}
    {defs : List VarDef} {vars : List (String × String)} (hparse : parse isPrintable code = .ok defs)
    (heval : eval isPrintable code nowNs = .ok vars) {n : Nat} {d : VarDef}
    (hd : defs[n]? = some d) : ∃ var, vars[n]? = some var ∧ evalDef nowNs d = .ok var := by
  rw [eval, hparse] at heval
  exact getElem?_of_mapM_eq_ok heval hd

/-- A bucket that divides the period fills all slots. -/
theorem slots_mul_of_dvd {period bucket : Nat} (hpos : 0 < bucket) (hdvd : bucket ∣ period) :
    slots period bucket * bucket = period := by
  obtain ⟨k, rfl⟩ := hdvd
  have hk : slots (bucket * k) bucket = k := by
    rw [slots, Nat.add_sub_assoc hpos, Nat.mul_add_div hpos, Nat.div_eq_of_lt (by omega)]
    rfl
  rw [hk, Nat.mul_comm]

/-- The labels of two slots are different. -/
theorem label_inj {label : String} {i j : Nat} :
    label ++ toString i = label ++ toString j ↔ i = j := by
  rw [String.append_right_inj]
  exact ⟨toString_nat_inj, fun h => h ▸ rfl⟩

/-- **The next slot.**  A code block that is evaluated calls both functions with the same
period and the same bucket, at any two of its places and with any labels, and no number
is too large.  Then {lit}`phase_now` has the slot of the time, one of the slots of the
period, and {lit}`phase_next` the slot after it, the first one after the last one, exactly
if the bucket divides the period, or the time is more than one bucket from the end of its
period, or in the last slot. -/
theorem phase_next_follows_iff (isPrintable : Char → Bool) {code : String} {nowNs : UInt64}
    {defs : List VarDef} {vars : List (String × String)} {cur next label label' : String}
    {periodS bucketS : UInt64} {m n : Nat} (hparse : parse isPrintable code = .ok defs)
    (heval : eval isPrintable code nowNs = .ok vars)
    (hcur : defs[m]? = some (.phaseBucket cur periodS bucketS 0 label))
    (hnext : defs[n]? = some (.phaseBucket next periodS bucketS 1 label'))
    (hperiod : nanos periodS < UInt64.size)
    (hlater : nowNs.toNat + nanos bucketS < UInt64.size) :
    (∃ i < slots periodS.toNat bucketS.toNat,
        i = nowNs.toNat % nanos periodS / nanos bucketS ∧
          vars[m]? = some (cur, label ++ toString i) ∧
          vars[n]? = some (next, label' ++ toString ((i + 1) % slots periodS.toNat bucketS.toNat))) ↔
      bucketS.toNat ∣ periodS.toNat ∨
        nowNs.toNat % nanos periodS + nanos bucketS < nanos periodS ∨
        (slots periodS.toNat bucketS.toNat - 1) * nanos bucketS ≤ nowNs.toNat % nanos periodS := by
  obtain ⟨var, hvar, hvalue⟩ := getElem?_of_eval hparse heval hcur
  obtain ⟨var', hvar', hvalue'⟩ := getElem?_of_eval hparse heval hnext
  obtain ⟨hpos, hle, rfl⟩ := evalDef_phaseBucket (.inl rfl) hperiod hlater hvalue
  obtain ⟨-, -, rfl⟩ := evalDef_phaseBucket (.inr rfl) hperiod hlater hvalue'
  have hzero : (0 : Int64).toInt.toNat = 0 := by decide
  have hone : (1 : Int64).toInt.toNat = 1 := by decide
  rw [hzero, Nat.zero_mul, Nat.add_zero] at hvar
  rw [hone, Nat.one_mul] at hvar'
  obtain ⟨hslots, -, hlast⟩ := slots_bounds hpos hle
  have hbucketNs : 0 < nanos bucketS := Nat.mul_pos hpos (by decide)
  have hleNs : nanos bucketS ≤ nanos periodS := Nat.mul_le_mul_right _ hle
  have hlastNs : nanos periodS ≤ slots periodS.toNat bucketS.toNat * nanos bucketS := by
    rw [nanos, nanos, ← Nat.mul_assoc]
    exact Nat.mul_le_mul_right _ hlast
  have hslot : fold (nanos periodS) (nanos bucketS) nowNs.toNat <
      slots periodS.toNat bucketS.toNat :=
    fold_lt hbucketNs (Nat.lt_of_lt_of_le hbucketNs hleNs) hlastNs
  have hfollows := fold_add_eq_iff (t := nowNs.toNat) hbucketNs hleNs hslots hlastNs
  constructor
  · rintro ⟨i, -, rfl, -, hi⟩
    rw [hvar'] at hi
    exact .inr (hfollows.mp (label_inj.mp (Prod.mk.inj (Option.some.inj hi)).2))
  · intro hcases
    have hend : nowNs.toNat % nanos periodS + nanos bucketS < nanos periodS ∨
        (slots periodS.toNat bucketS.toNat - 1) * nanos bucketS ≤ nowNs.toNat % nanos periodS := by
      rcases hcases with hdvd | hend
      · -- the last slot is a full one
        have hfull : slots periodS.toNat bucketS.toNat * nanos bucketS = nanos periodS := by
          rw [nanos, nanos, ← Nat.mul_assoc, slots_mul_of_dvd hpos hdvd]
        rw [Nat.sub_one_mul, hfull]
        omega
      · exact hend
    refine ⟨fold (nanos periodS) (nanos bucketS) nowNs.toNat, hslot, rfl, hvar, ?_⟩
    rw [hvar', hfollows.mpr hend]

/-- The example of the documentation, in the last slot of its period. -/
theorem phase_next_follows_wrap :
    ∃ i < slots 240 15, i = 225000000000 % nanos 240 / nanos 15 ∧
      [("cur", "p15"), ("next", "p0")][0]? = some ("cur", "p" ++ toString i) ∧
      [("cur", "p15"), ("next", "p0")][1]? =
        some ("next", "p" ++ toString ((i + 1) % slots 240 15)) := by
  have hparse : parse (fun _ => true) "$cur = phase_now(240, 15)\n$next = phase_next(240, 15)" =
      .ok [.phaseBucket "cur" 240 15 0 "p", .phaseBucket "next" 240 15 1 "p"] := by
    decide
  have heval : eval (fun _ => true) "$cur = phase_now(240, 15)\n$next = phase_next(240, 15)"
      225000000000 = .ok [("cur", "p15"), ("next", "p0")] := by
    rw [eval, hparse]
    decide
  exact (phase_next_follows_iff (fun _ => true) (m := 0) (n := 1) hparse heval rfl rfl (by decide)
    (by decide)).mpr (.inl (by decide))

/-- With slots of three seconds in a period of seven, five seconds into the period, the
last slot is jumped over. -/
theorem phase_next_skips_short_slot :
    parse (fun _ => true) "$cur = phase_now(7, 3)\n$next = phase_next(7, 3)" =
        .ok [.phaseBucket "cur" 7 3 0 "p", .phaseBucket "next" 7 3 1 "p"] ∧
      eval (fun _ => true) "$cur = phase_now(7, 3)\n$next = phase_next(7, 3)" 5000000000 =
        .ok [("cur", "p1"), ("next", "p0")] ∧
      ¬ ∃ i < slots 7 3, i = 5000000000 % nanos 7 / nanos 3 ∧
        ("cur", "p1") = ("cur", "p" ++ toString i) ∧
        ("next", "p0") = ("next", "p" ++ toString ((i + 1) % slots 7 3)) := by
  have hparse : parse (fun _ => true) "$cur = phase_now(7, 3)\n$next = phase_next(7, 3)" =
      .ok [.phaseBucket "cur" 7 3 0 "p", .phaseBucket "next" 7 3 1 "p"] := by
    decide
  refine ⟨hparse, ?_, ?_⟩
  · rw [eval, hparse]
    decide
  · rintro ⟨i, -, rfl, -, hnext⟩
    revert hnext
    decide

end WpKnowledge.Vel

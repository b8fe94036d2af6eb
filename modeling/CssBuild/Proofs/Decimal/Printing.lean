import CssBuild.Decimal.Layout
import CssBuild.Proofs.Decimal.Scaling
import CssBuild.Proofs.Json.Spelling

/-!
# CssBuild.Proofs.Decimal.Printing

The text of a number reads back.

1. The digits of a number are digits that have its value, and start with a zero
   only for zero itself.
2. A positional text is a numeral with a fraction and without an exponent; a
   scientific text is a numeral with an exponent. Either stands for the decimal
   that it was made of.
3. So every layout writes a double as a numeral that stands for the double,
   and with an exponent of at most three digits (`magnitudeText_written`).
-/

namespace CssBuild

open Json (IsDigits WrittenNumeral WrittenExponent digitsValue isDigit)

namespace Layout

/-! ## Digits -/

theorem isDigit_of_isDigit {c : Char} (h : c.isDigit = true) : isDigit c = true := by
  simp only [Char.isDigit, Bool.and_eq_true, decide_eq_true_eq] at h
  simp only [isDigit, Bool.and_eq_true, decide_eq_true_eq]
  exact h

theorem isDigits_digits (n : Nat) : IsDigits (digits n) :=
  ⟨Nat.toDigits_ne_nil, fun _ hc => isDigit_of_isDigit
    (Nat.isDigit_of_mem_toDigits (by decide) (by decide) hc)⟩

theorem digitsValue_digits (n : Nat) : digitsValue (digits n) = n := Nat.ofDigitChars_ten_toDigits

theorem head_digits {n : Nat} (h : (digits n).head? = some '0') : n = 0 := by
  induction n using Nat.strongRecOn with
  | ind n ih =>
    by_cases hn : n < 10
    · rw [digits, Nat.toDigits_of_lt_base hn] at h
      exact Nat.digitChar_eq_zero.1 (Option.some.inj h)
    · have hle : 10 ≤ n := Nat.le_of_not_lt hn
      have hless : n / 10 < n := Nat.div_lt_self (by omega) (by decide)
      obtain ⟨c, more, hfirst⟩ :=
        List.exists_cons_of_ne_nil (Nat.toDigits_ne_nil (n := n / 10) (b := 10))
      rw [digits, Nat.toDigits_of_base_le (by decide) hle, hfirst, List.cons_append] at h
      have hzero := ih (n / 10) hless (by rw [digits, hfirst]; exact h)
      omega

theorem leads_digits (n : Nat) (h : (digits n).head? = some '0') : digits n = ['0'] := by
  rw [head_digits h]
  rfl

theorem bounds_digits {n : Nat} (hn : n ≠ 0) :
    10 ^ ((digits n).length - 1) ≤ n ∧ n < 10 ^ ((digits n).length - 1 + 1) := by
  have hpos : 0 < (digits n).length := Nat.length_toDigits_pos
  have hlength {k : Nat} (hk : 0 < k) : (digits n).length ≤ k ↔ n < 10 ^ k :=
    Nat.length_toDigits_le_iff (by decide) hk
  refine ⟨?_, (hlength (Nat.succ_pos _)).1 (by omega)⟩
  by_cases hone : (digits n).length - 1 = 0
  · rw [hone]
    exact Nat.pos_of_ne_zero hn
  · refine Nat.not_lt.1 fun hless => ?_
    have := (hlength (Nat.pos_of_ne_zero hone)).2 hless
    omega

theorem digitsValue_append_zeros (ds : List Char) (k : Nat) :
    digitsValue (ds ++ List.replicate k '0') = digitsValue ds * 10 ^ k := by
  rw [digitsValue, Nat.ofDigitChars_append, Nat.ofDigitChars_replicate_zero, Nat.mul_comm]
  rfl

theorem digitsValue_zeros_append (k : Nat) (ds : List Char) :
    digitsValue (List.replicate k '0' ++ ds) = digitsValue ds := by
  rw [digitsValue, Nat.ofDigitChars_append, Nat.ofDigitChars_replicate_zero, Nat.mul_zero]
  rfl

theorem dropZeros_spec (fuel n : Nat) :
    (dropZeros fuel n).1 * 10 ^ (dropZeros fuel n).2 = n := by
  induction fuel generalizing n with
  | zero => simp [dropZeros]
  | succ fuel ih =>
    rw [dropZeros]
    split
    · next hzero =>
      simp only [Nat.pow_succ, ← Nat.mul_assoc, ih]
      omega
    · simp

/-! ## Layouts -/

theorem isDigits_zero : IsDigits ['0'] := ⟨List.cons_ne_nil _ _, by decide⟩

theorem isDigit_replicate (k : Nat) : ∀ c ∈ List.replicate k '0', isDigit c = true := by
  intro c hc
  rw [(List.mem_replicate.1 hc).2]
  rfl

theorem isDigits_append {s t : List Char} (hs : IsDigits s) (ht : ∀ c ∈ t, isDigit c = true) :
    IsDigits (s ++ t) := by
  refine ⟨by simp [hs.1], fun c hc => ?_⟩
  obtain hc | hc := List.mem_append.1 hc
  · exact hs.2 c hc
  · exact ht c hc

/-- A positional text has digits on either side of a point, and stands for its digits times a
power of ten. -/
theorem positionalText_written {m : Nat} (hm : m ≠ 0) (point : Int) :
    ∃ whole fraction, IsDigits whole ∧ (whole.head? = some '0' → whole = ['0']) ∧
      IsDigits fraction ∧ positionalText (digits m) point = whole ++ '.' :: fraction ∧
      ∀ negative, Double.ofDecimal? negative (digitsValue (whole ++ fraction))
        (0 - fraction.length) = Double.ofDecimal? negative m (point - (digits m).length) := by
  have hdigits := isDigits_digits m
  have hhead : (digits m).head? ≠ some '0' := fun h => hm (head_digits h)
  obtain ⟨c, more, hcons⟩ := List.exists_cons_of_ne_nil hdigits.1
  unfold positionalText
  by_cases hsmall : point ≤ 0
  · rw [if_pos hsmall]
    refine ⟨['0'], List.replicate (-point).toNat '0' ++ digits m, isDigits_zero, fun _ => rfl,
      ⟨by simp [hdigits.1], fun d hd => ?_⟩, rfl, fun negative => ?_⟩
    · obtain hd | hd := List.mem_append.1 hd
      · exact isDigit_replicate _ d hd
      · exact hdigits.2 d hd
    · have hvalue : digitsValue (['0'] ++ (List.replicate (-point).toNat '0' ++ digits m)) = m := by
        rw [← List.append_assoc, List.singleton_append, ← List.replicate_succ,
          digitsValue_zeros_append, digitsValue_digits]
      rw [hvalue, List.length_append, List.length_replicate]
      congr 1
      omega
  rw [if_neg hsmall]
  by_cases hlarge : ((digits m).length : Int) ≤ point
  · rw [if_pos hlarge]
    refine ⟨digits m ++ List.replicate (point.toNat - (digits m).length) '0', ['0'],
      isDigits_append hdigits (isDigit_replicate _), fun h => ?_, isDigits_zero, rfl,
      fun negative => ?_⟩
    · rw [hcons] at hhead
      rw [hcons, List.cons_append] at h
      exact absurd h hhead
    · have hvalue : digitsValue (digits m ++ List.replicate (point.toNat - (digits m).length) '0' ++
          ['0']) = m * 10 ^ (point.toNat - (digits m).length + 1) := by
        rw [List.append_assoc, ← List.replicate_succ', digitsValue_append_zeros,
          digitsValue_digits]
      rw [hvalue, ← Double.ofDecimal?_mul_pow negative m
        (point.toNat - (digits m).length + 1) (point - (digits m).length), List.length_singleton]
      congr 1
      omega
  · rw [if_neg hlarge]
    have htake : (digits m).take point.toNat ≠ [] := by
      rw [Ne, List.take_eq_nil_iff]
      rintro (h | h)
      · omega
      · exact hdigits.1 h
    have hdrop : (digits m).drop point.toNat ≠ [] := by
      rw [Ne, List.drop_eq_nil_iff]
      omega
    refine ⟨(digits m).take point.toNat, (digits m).drop point.toNat,
      ⟨htake, fun d hd => hdigits.2 d (List.mem_of_mem_take hd)⟩, fun h => ?_,
      ⟨hdrop, fun d hd => hdigits.2 d (List.mem_of_mem_drop hd)⟩, rfl, fun negative => ?_⟩
    · rw [List.head?_take] at h
      split at h
      · cases h
      · exact absurd h hhead
    · rw [List.take_append_drop, digitsValue_digits, List.length_drop]
      congr 1
      omega

/-- The exponent of a scientific text stands for the power. -/
theorem exponent_written (power : Int) : ∃ e : WrittenExponent,
    e.chars = 'e' :: (if power < 0 then '-' else '+') :: digits power.natAbs ∧ e.value = power := by
  by_cases hsign : power < 0
  · refine ⟨⟨'e', ['-'], digits power.natAbs, .inl rfl, by simp, isDigits_digits _⟩, ?_, ?_⟩
    · simp [WrittenExponent.chars, hsign]
    · simp only [WrittenExponent.value, digitsValue_digits, if_true]
      omega
  · refine ⟨⟨'e', ['+'], digits power.natAbs, .inl rfl, by simp, isDigits_digits _⟩, ?_, ?_⟩
    · simp [WrittenExponent.chars, hsign]
    · simp only [WrittenExponent.value, digitsValue_digits]
      rw [if_neg (by decide)]
      omega

/-- A scientific text has digits, one of them before the point, and an exponent. -/
theorem scientificText_written {m : Nat} (hm : m ≠ 0) (power : Int) :
    ∃ n : WrittenNumeral, n.chars = scientificText (digits m) power ∧
      (∃ e, n.exponent = some e ∧ e.value = power) ∧ ∀ negative, n.numeral.toDouble? negative =
        Double.ofDecimal? negative m (power + 1 - (digits m).length) := by
  have hdigits := isDigits_digits m
  have hhead : (digits m).head? ≠ some '0' := fun h => hm (head_digits h)
  have hvalue := digitsValue_digits m
  obtain ⟨e, hchars, hexponent⟩ := exponent_written power
  unfold scientificText
  match hds : digits m with
  | [] => exact absurd hds hdigits.1
  | [first] =>
    rw [hds] at hdigits hhead hvalue
    refine ⟨⟨[first], none, some e, hdigits, fun h => absurd h hhead, by simp⟩, ?_,
      ⟨e, rfl, hexponent⟩, ?_⟩
    · simp [WrittenNumeral.chars, WrittenNumeral.fractionChars, WrittenNumeral.exponentChars,
        hchars]
    · intro negative
      simp only [WrittenNumeral.numeral, Json.Numeral.toDouble?, Option.map_some, Option.getD_some,
        Option.getD_none, List.append_nil, hvalue, hexponent, List.length_nil,
        List.length_singleton]
      congr 1
      omega
  | first :: second :: rest =>
    rw [hds] at hdigits hhead hvalue
    have hfirst : IsDigits [first] :=
      ⟨List.cons_ne_nil _ _, fun d hd => hdigits.2 d (by simp_all)⟩
    have hrest : IsDigits (second :: rest) :=
      ⟨List.cons_ne_nil _ _, fun d hd => hdigits.2 d (List.mem_cons_of_mem _ hd)⟩
    refine ⟨⟨[first], some (second :: rest), some e, hfirst, fun h => absurd h hhead,
      fun _ h => Option.some.inj h ▸ hrest⟩, ?_, ⟨e, rfl, hexponent⟩, ?_⟩
    · simp [WrittenNumeral.chars, WrittenNumeral.fractionChars, WrittenNumeral.exponentChars,
        hchars]
    · intro negative
      simp only [WrittenNumeral.numeral, Json.Numeral.toDouble?, Option.map_some, Option.getD_some,
        List.singleton_append, hvalue, hexponent, List.length_cons]
      congr 1
      omega

/-- The shortest decimal without the zeros at its end still stands for the magnitude. -/
theorem stripped_shortest {index : Nat} (h : index ≠ 0) :
    ∃ m z, dropZeros (digits (Decimal.shortest index).digits).length
        (Decimal.shortest index).digits = (m, z) ∧ m ≠ 0 ∧
      ∀ negative, Double.ofDecimal? negative m ((Decimal.shortest index).exponent + z) =
        Double.ofIndex? negative index := by
  have hreads := Decimal.shortest_reads_back index
  generalize Decimal.shortest index = d at hreads
  have hdigits : d.digits ≠ 0 := by
    intro hzero
    rw [Decimal.index, Double.nearestDecimal, if_pos hzero] at hreads
    exact h hreads.symm
  have hspec := dropZeros_spec (digits d.digits).length d.digits
  generalize dropZeros (digits d.digits).length d.digits = stripped at hspec
  obtain ⟨m, z⟩ := stripped
  refine ⟨m, z, rfl, ?_, fun negative => ?_⟩
  · rintro rfl
    rw [Nat.zero_mul] at hspec
    exact hdigits hspec.symm
  · rw [← Double.ofDecimal?_mul_pow negative m z, hspec, Int.add_sub_cancel, Double.ofDecimal?,
      ← hreads]
    rfl

/-- A decimal that names a finite magnitude has a leading digit with a small power of ten. -/
theorem natAbs_power_le {index m : Nat} {exponent : Int} (hindex : index ≠ 0) (hm : m ≠ 0)
    (hfinite : index < Double.limit)
    (hvalue : ∀ negative, Double.ofDecimal? negative m exponent =
      Double.ofIndex? negative index) :
    (exponent + (digits m).length - 1).natAbs ≤ 400 := by
  have hpower : Double.nearestPower m exponent = index :=
    @Double.eq_of_ofIndex?_eq false _ _ hfinite
      ((Double.ofDecimal?_eq_ofIndex? false hm exponent).symm.trans (hvalue false))
  obtain ⟨hlow, hhigh⟩ := bounds_digits hm
  have hpos : 0 < (digits m).length := Nat.length_toDigits_pos
  have hleading := Double.natAbs_leading_le hlow hhigh (hpower ▸ hindex) (hpower ▸ hfinite)
  omega

theorem isFixed_zero (negative : Bool) :
    Double.ofDecimal? negative (digitsValue (['0'] ++ ['0'])) (0 - (['0'] : List Char).length) =
      Double.ofIndex? negative 0 := rfl

/-- The plain text of a magnitude has digits on either side of a point, and stands for the
magnitude. -/
theorem magnitudeText_plain (index : Nat) :
    ∃ whole fraction, IsDigits whole ∧ (whole.head? = some '0' → whole = ['0']) ∧
      IsDigits fraction ∧ plain.magnitudeText index = whole ++ '.' :: fraction ∧
      ∀ negative, Double.ofDecimal? negative (digitsValue (whole ++ fraction))
        (0 - fraction.length) = Double.ofIndex? negative index := by
  unfold magnitudeText
  by_cases h : index = 0
  · rw [if_pos h, h]
    exact ⟨['0'], ['0'], isDigits_zero, fun _ => rfl, isDigits_zero, rfl, isFixed_zero⟩
  · rw [if_neg h]
    obtain ⟨m, z, hstrip, hm, hvalue⟩ := stripped_shortest h
    obtain ⟨whole, fraction, hwhole, leads, hfraction, htext, hsame⟩ :=
      positionalText_written hm ((Decimal.shortest index).exponent + z + (digits m).length)
    refine ⟨whole, fraction, hwhole, leads, hfraction, ?_, fun negative => ?_⟩
    · rw [← htext, decimalText, hstrip]
      rfl
    · rw [hsame, Int.add_sub_cancel, hvalue]

/-- The text of a magnitude in any layout is a numeral with a fraction or an exponent, and stands
for the magnitude. Of a finite magnitude the exponent is small. -/
theorem magnitudeText_written (layout : Layout) (index : Nat) :
    ∃ n : WrittenNumeral, n.chars = layout.magnitudeText index ∧
      (n.fraction = none → n.exponent ≠ none) ∧
      (index < Double.limit → ∀ e, n.exponent = some e → e.value.natAbs ≤ 400) ∧
      ∀ negative, n.numeral.toDouble? negative = Double.ofIndex? negative index := by
  unfold magnitudeText
  by_cases h : index = 0
  · rw [if_pos h, h]
    exact ⟨⟨['0'], some ['0'], none, isDigits_zero, fun _ => rfl,
      fun _ h => Option.some.inj h ▸ isDigits_zero⟩, rfl, by simp, by simp, isFixed_zero⟩
  · rw [if_neg h]
    obtain ⟨m, z, hstrip, hm, hvalue⟩ := stripped_shortest h
    simp only [decimalText, hstrip]
    split
    · obtain ⟨whole, fraction, hwhole, leads, hfraction, htext, hsame⟩ :=
        positionalText_written hm ((Decimal.shortest index).exponent + z + (digits m).length)
      refine ⟨⟨whole, some fraction, none, hwhole, leads,
        fun _ h => Option.some.inj h ▸ hfraction⟩, ?_, by simp, by simp, fun negative => ?_⟩
      · rw [htext]
        simp [WrittenNumeral.chars, WrittenNumeral.fractionChars, WrittenNumeral.exponentChars]
      · rw [Int.add_sub_cancel] at hsame
        rw [← hvalue negative, ← hsame negative]
        rfl
    · obtain ⟨n, htext, ⟨e, hexponent, hpower⟩, hsame⟩ := scientificText_written hm
        ((Decimal.shortest index).exponent + z + (digits m).length - 1)
      refine ⟨n, htext, fun _ => by simp [hexponent], fun hfinite e' he' => ?_,
        fun negative => ?_⟩
      · rw [hexponent] at he'
        rw [← Option.some.inj he', hpower]
        exact natAbs_power_le h hm hfinite hvalue
      · rw [hsame, Int.sub_add_cancel, Int.add_sub_cancel, hvalue]

end Layout

end CssBuild

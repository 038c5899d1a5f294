import Surds.Proofs.Surd.Fold

/-!
# Refused products

The form of a product of powers is refused for the first of its powers, in the order of the bases,
whose whole part cannot be taken out (`Base.Refused`) : a negative power of zero, or a power of an
integer beyond minus one and one whose floor is over the limit. The other powers are always taken
out, and multiplying by what was taken out never fails, so neither they nor the coefficient have a
part in it (`Exponents.FirstRefused.congr`).

A coefficient of zero is looked at last and hides no refusal. A form that is not refused is zero for
such a coefficient or for a positive power of zero only (`Surd.ofPowers_eq_error_iff`).
-/

namespace Surds

/-- A power that is refused, with the cause. -/
inductive Base.Refused : Base → Scalar → Failure → Prop
  /-- Zero has no negative powers. -/
  | divisionByZero {e : Scalar} (he : e.value < 0) : Refused (.int 0) e .divisionByZero
  /-- Zero, one and minus one apart, no whole power over the limit is computed. -/
  | exponentTooLarge {n : ℤ} {e : Scalar} (hn : 2 ≤ n.natAbs)
      (he : exponentLimit < ⌊e.value⌋.natAbs) : Refused (.int n) e .exponentTooLarge

/-- The first of the powers that are refused is refused for the cause `w`. -/
def Exponents.FirstRefused (p : Exponents) (w : Failure) : Prop :=
  ∃ b e, p.get? b = some e ∧ b.Refused e w ∧
    ∀ b' e' u, b' < b → p.get? b' = some e' → ¬ b'.Refused e' u

variable {b : Base} {n : ℤ} {c e : Scalar} {w : Failure} {p q : Exponents} {x : Surd}

/-! ## One power -/

namespace Base

theorem refused_int_iff : (int n).Refused e w ↔
    w = .divisionByZero ∧ n = 0 ∧ e.value < 0 ∨
      w = .exponentTooLarge ∧ 1 < n.natAbs ∧ exponentLimit < ⌊e.value⌋.natAbs := by
  constructor
  · rintro (he | ⟨hn, he⟩)
    · exact .inl ⟨rfl, rfl, he⟩
    · exact .inr ⟨rfl, hn, he⟩
  · rintro (⟨rfl, rfl, he⟩ | ⟨rfl, hn, he⟩)
    · exact .divisionByZero he
    · exact .exponentTooLarge hn he

/-- Neither the imaginary unit nor one or minus one has a power that is refused. -/
theorem Refused.eq_int (h : b.Refused e w) : ∃ n : ℤ, b = int n ∧ n ≠ 1 ∧ n ≠ -1 := by
  cases h with
  | divisionByZero => exact ⟨0, rfl, by decide, by decide⟩
  | @exponentTooLarge n _ hn => exact ⟨n, rfl, by omega, by omega⟩

/-- A power is not taken out just when it is refused. -/
theorem carried_eq_error_iff :
    ∀ {b : Base} {e : Scalar}, e.Canonical → (b.carried e = .error w ↔ b.Refused e w)
  | imaginary, .whole _, _ => iff_of_false nofun nofun
  | imaginary, .frac _, _ => iff_of_false nofun nofun
  | int n, .whole k, _ => by
    rw [carried_int_whole, intPow_eq_error_iff, refused_int_iff, Scalar.value_whole, Int.floor_intCast,
      Int.cast_lt_zero]
  | int n, .frac r, hr => by
    rw [carried_int_frac, refused_int_iff]
    split_ifs with hn
    · rw [intPow_eq_error_iff, Scalar.value_neg_iff hr, hn]
      simp
    · rw [intPow_eq_error_iff, ← Fraction.floor_eq]
      simp [hn]

theorem exists_carried_iff (he : e.Canonical) :
    (∃ v, b.carried e = .ok v) ↔ ∀ w, ¬ b.Refused e w := by
  rw [exists_eq_ok_iff]
  exact forall_congr' fun w => not_congr (carried_eq_error_iff he)

end Base

/-! ## The first refused power -/

/-- A refusal depends on the powers of integers beyond minus one and one only. -/
theorem Exponents.FirstRefused.congr
    (hpq : ∀ n : ℤ, n ≠ 1 → n ≠ -1 → p.get? (.int n) = q.get? (.int n)) (h : p.FirstRefused w) :
    q.FirstRefused w := by
  obtain ⟨b, e, hget, hrefused, hfirst⟩ := h
  obtain ⟨n, rfl, h1, h2⟩ := hrefused.eq_int
  refine ⟨.int n, e, hpq n h1 h2 ▸ hget, hrefused, fun b' e' u hlt hget' hrefused' => ?_⟩
  obtain ⟨m, rfl, h1, h2⟩ := hrefused'.eq_int
  exact hfirst (.int m) e' u hlt (hpq m h1 h2 ▸ hget') hrefused'

namespace Surd

/-- The numbers are taken out in the order of the bases, so the first one that cannot be is the
cause. -/
theorem carriedInto_eq_error_iff :
    ∀ {entries : List (Base × Scalar)} {c : Scalar}, entries.Pairwise (fun r s => r.1 < s.1) →
      (carriedInto c entries = .error w ↔ ∃ r ∈ entries, r.1.carried r.2 = .error w ∧
        ∀ s ∈ entries, s.1 < r.1 → ∃ v, s.1.carried s.2 = .ok v)
  | [], _, _ => iff_of_false nofun nofun
  | r :: rest, c, hsorted => by
    obtain ⟨hr, hrest⟩ := List.pairwise_cons.1 hsorted
    rw [carriedInto, List.foldlM_cons]
    cases hcarried : r.1.carried r.2 with
    | error u =>
      have hcause : (∃ s ∈ r :: rest, s.1.carried s.2 = .error w ∧
          ∀ t ∈ r :: rest, t.1 < s.1 → ∃ v, t.1.carried t.2 = .ok v) ↔ u = w := by
        constructor
        · rintro ⟨s, hs, hw, hbefore⟩
          rcases List.mem_cons.1 hs with rfl | hs
          · exact Except.error.inj (hcarried.symm.trans hw)
          · obtain ⟨v, hv⟩ := hbefore r List.mem_cons_self (hr s hs)
            cases hcarried.symm.trans hv
        · rintro rfl
          refine ⟨r, List.mem_cons_self, hcarried, fun t ht hlt => ?_⟩
          rcases List.mem_cons.1 ht with rfl | ht
          · exact absurd hlt (Base.lt_irrefl _)
          · exact absurd (Base.lt_trans hlt (hr t ht)) (Base.lt_irrefl _)
      rw [hcause]
      exact ⟨fun h => Except.error.inj h, congrArg Except.error⟩
    | ok v =>
      show carriedInto (c * v) rest = .error w ↔ _
      rw [carriedInto_eq_error_iff hrest]
      simp [hcarried]

theorem ofPowers_eq_error_iff_firstRefused (hp : p.Canonical) (c : Scalar) :
    ofPowers c p = .error w ↔ p.FirstRefused w := by
  -- The test for zero and the choice of the simplest form come last and do not fail.
  have hfold : ofPowers c p = .error w ↔ carriedInto c p.entries = .error w := by
    rw [ofPowers_eq_bind, bind_eq_error_iff]
    refine or_iff_left ?_
    rintro ⟨v, -, h⟩
    cases h
  rw [hfold, carriedInto_eq_error_iff p.sorted]
  constructor
  · rintro ⟨⟨b, e⟩, hmem, hcause, hfirst⟩
    refine ⟨b, e, Exponents.mem_entries_iff.1 hmem,
      (Base.carried_eq_error_iff (hp _ hmem)).1 hcause, fun b' e' u hlt hget' => ?_⟩
    have hmem' := Exponents.mem_entries_iff.2 hget'
    exact (Base.exists_carried_iff (hp _ hmem')).1 (hfirst _ hmem' hlt) u
  · rintro ⟨b, e, hget, hrefused, hfirst⟩
    refine ⟨(b, e), Exponents.mem_entries_iff.2 hget,
      (Base.carried_eq_error_iff (hp.get? hget)).2 hrefused, fun s hmem' hlt => ?_⟩
    exact (Base.exists_carried_iff (hp _ hmem')).2 fun u =>
      hfirst s.1 s.2 u hlt (Exponents.mem_entries_iff.1 hmem')

/-- A product that has no refused power is computed. -/
theorem exists_ofPowers_iff (hp : p.Canonical) (c : Scalar) :
    (∃ x, ofPowers c p = .ok x) ↔ ∀ b e w, p.get? b = some e → ¬ b.Refused e w := by
  constructor
  · rintro ⟨x, hx⟩ b e w hget
    obtain ⟨v, hv, -⟩ := ofPowers_eq_ok_iff.1 hx
    exact (Base.exists_carried_iff (hp.get? hget)).1
      (exists_carried_of_carriedInto hv _ (Exponents.mem_entries_iff.2 hget)) w
  · intro h
    refine exists_ofPowers c fun r hr => (Base.exists_carried_iff (hp r hr)).2 fun w => ?_
    exact h r.1 r.2 w (Exponents.mem_entries_iff.1 hr)

/-- A form is zero for a coefficient of zero or a positive power of zero. -/
theorem eq_zero_iff_of_ofPowers (hc : c.Canonical) (hp : p.Canonical) (h : ofPowers c p = .ok x) :
    x = scalar 0 ↔ c = 0 ∨ ∃ e, p.get? (.int 0) = some e ∧ 0 < e.value := by
  have hnonneg := nonneg_of_ofPowers h
  have hprod : p.toFinsupp.prod Base.contribution = 0 ↔ 0 < p.toFinsupp (.int 0) := by
    rw [hnonneg.lt_iff_ne']
    exact ⟨fun h0 hzero => prod_contribution_ne_zero hzero h0, prod_contribution_eq_zero⟩
  rw [(foldOf_ofPowers hc hp h).eq_zero_iff, hc.value_eq_zero_iff, hprod]
  refine or_congr_right ?_
  cases hget : p.get? (.int 0) with
  | none => simp [Exponents.toFinsupp_of_get?_none hget]
  | some e => simp [Exponents.toFinsupp_of_get? hget]

/-- A product of powers is refused for the first of its powers that is, whatever the coefficient and
the powers of the imaginary unit, of one and of minus one are, and it is computed if there is no
such power. Then it is zero just for a coefficient of zero or a positive power of zero. -/
theorem ofPowers_eq_error_iff (hc : c.Canonical) (hp : p.Canonical) :
    (∀ w, ofPowers c p = .error w ↔ p.FirstRefused w) ∧
      ((∃ x, ofPowers c p = .ok x) ↔ ∀ b e w, p.get? b = some e → ¬ b.Refused e w) ∧
      (∀ (d : Scalar) (q : Exponents), q.Canonical →
        (∀ n : ℤ, n ≠ 1 → n ≠ -1 → p.get? (.int n) = q.get? (.int n)) →
        ∀ w, ofPowers d q = .error w ↔ ofPowers c p = .error w) ∧
      ∀ x, ofPowers c p = .ok x →
        (x = scalar 0 ↔ c = 0 ∨ ∃ e, p.get? (.int 0) = some e ∧ 0 < e.value) := by
  refine ⟨fun w => ofPowers_eq_error_iff_firstRefused hp c, exists_ofPowers_iff hp c,
    fun d q hq hpq w => ?_, fun x => eq_zero_iff_of_ofPowers hc hp⟩
  rw [ofPowers_eq_error_iff_firstRefused hq, ofPowers_eq_error_iff_firstRefused hp]
  exact ⟨.congr fun n h1 h2 => (hpq n h1 h2).symm, .congr hpq⟩

/-- A floor over the limit is the cause although a negative power of zero follows and the
coefficient is zero; the opposite exponent has the limit as its floor, and zero is the cause. -/
theorem ofPowers_eq_error_of_floor :
    ofPowers 0 ⟨[(.imaginary, .whole 3), (.int (-3), .frac ⟨-8589934591, 2⟩),
        (.int (-1), .whole 8589934591), (.int 0, .whole (-1))], by decide⟩ =
        .error .exponentTooLarge ∧
      ofPowers 0 ⟨[(.imaginary, .whole 3), (.int (-3), .frac ⟨8589934591, 2⟩),
        (.int (-1), .whole 8589934591), (.int 0, .whole (-1))], by decide⟩ =
        .error .divisionByZero := by
  have hbelow : exponentLimit < ⌊(Scalar.frac ⟨-8589934591, 2⟩).value⌋.natAbs := by
    rw [← Fraction.floor_eq]
    decide
  have habove : ¬ exponentLimit < ⌊(Scalar.frac ⟨8589934591, 2⟩).value⌋.natAbs := by
    rw [← Fraction.floor_eq]
    decide
  constructor
  · refine ((ofPowers_eq_error_iff (by decide) (by decide)).1 _).2
      ⟨.int (-3), _, rfl, .exponentTooLarge (by decide) hbelow, fun b' e' u hlt hget hrefused => ?_⟩
    obtain ⟨m, rfl, -, -⟩ := hrefused.eq_int
    have hmem := Exponents.mem_entries_iff.2 hget
    rw [Base.int_lt_int_iff] at hlt
    simp only [List.mem_cons, Prod.mk.injEq, Base.int.injEq, reduceCtorEq, false_and, false_or,
      List.not_mem_nil, or_false] at hmem
    omega
  · refine ((ofPowers_eq_error_iff (by decide) (by decide)).1 _).2
      ⟨.int 0, _, rfl, .divisionByZero (by simp), fun b' e' u hlt hget hrefused => ?_⟩
    obtain ⟨m, rfl, -, hne⟩ := hrefused.eq_int
    have hmem := Exponents.mem_entries_iff.2 hget
    rw [Base.int_lt_int_iff] at hlt
    simp only [List.mem_cons, Prod.mk.injEq, Base.int.injEq, reduceCtorEq, false_and, false_or,
      List.not_mem_nil, or_false] at hmem
    rcases hmem with ⟨rfl, rfl⟩ | ⟨rfl, -⟩ | ⟨rfl, -⟩
    · cases hrefused with
      | exponentTooLarge _ hlimit => exact habove hlimit
    · exact hne rfl
    · exact absurd hlt (by decide)

end Surd

end Surds

import Mathlib.Data.List.Lex
import Mathlib.Data.Char
import Mathlib.Tactic.Ring

/-! # Fields of printed numbers

Two texts that are cut at a separator which does not occur before it (or behind it) agree
part by part. Digit strings of one length are in the order of their values.
-/
namespace Digits

theorem append_cons_inj {α : Type*} {x₁ x₂ z₁ z₂ : List α} {a : α} (h₁ : a ∉ x₁) (h₂ : a ∉ x₂)
    (h : x₁ ++ a :: z₁ = x₂ ++ a :: z₂) : x₁ = x₂ ∧ z₁ = z₂ := by
  induction x₁ generalizing x₂ with
  | nil =>
    cases x₂ with
    | nil => exact ⟨rfl,(List.cons.inj h).2⟩
    | cons b x₂ =>
      obtain ⟨hb,_⟩ := List.cons.inj h
      exact absurd (hb ▸ List.mem_cons_self) h₂
  | cons b x₁ ih =>
    cases x₂ with
    | nil =>
      obtain ⟨hb,_⟩ := List.cons.inj h
      exact absurd (hb ▸ List.mem_cons_self) h₁
    | cons b' x₂ =>
      obtain ⟨hb,ht⟩ := List.cons.inj h
      obtain ⟨hx,hz⟩ := ih (fun hm => h₁ (List.mem_cons_of_mem _ hm)) (fun hm => h₂ (List.mem_cons_of_mem _ hm)) ht
      exact ⟨by rw [hb, hx],hz⟩

/-- The cut at the last separator. -/
theorem append_cons_inj_last {α : Type*} {x₁ x₂ z₁ z₂ : List α} {a : α} (h₁ : a ∉ z₁) (h₂ : a ∉ z₂)
    (h : x₁ ++ a :: z₁ = x₂ ++ a :: z₂) : x₁ = x₂ ∧ z₁ = z₂ := by
  have hr := congrArg List.reverse h
  simp only [List.reverse_append, List.reverse_cons, List.append_assoc, List.singleton_append] at hr
  obtain ⟨hz,hx⟩ := append_cons_inj (fun hm => h₁ (List.mem_reverse.mp hm)) (fun hm => h₂ (List.mem_reverse.mp hm)) hr
  exact ⟨List.reverse_inj.mp hx,List.reverse_inj.mp hz⟩

/-! ## Order of digit strings -/

theorem ofDigitChars_le {ds : List Char} (h : ∀ c ∈ ds, c.isDigit) (n : ℕ) :
    n * 10 ^ ds.length ≤ Nat.ofDigitChars 10 ds n ∧ Nat.ofDigitChars 10 ds n < (n + 1) * 10 ^ ds.length := by
  induction ds generalizing n with
  | nil => simp [Nat.ofDigitChars]
  | cons c ds ih =>
    have hdig := Char.isDigit_iff_toNat.mp (h c List.mem_cons_self)
    have h0 : '0'.toNat = 48 := rfl
    have h9 : '9'.toNat = 57 := rfl
    obtain ⟨hlo,hhi⟩ := ih (fun d hd => h d (List.mem_cons_of_mem _ hd)) (10 * n + (c.toNat - '0'.toNat))
    rw [Nat.ofDigitChars_cons, List.length_cons, pow_succ]
    constructor
    · calc n * (10 ^ ds.length * 10) = 10 * n * 10 ^ ds.length := by ring
        _ ≤ (10 * n + (c.toNat - '0'.toNat)) * 10 ^ ds.length := Nat.mul_le_mul_right _ (Nat.le_add_right _ _)
        _ ≤ _ := hlo
    · calc _ < (10 * n + (c.toNat - '0'.toNat) + 1) * 10 ^ ds.length := hhi
        _ ≤ (10 * n + 10) * 10 ^ ds.length := Nat.mul_le_mul_right _ (by omega)
        _ = (n + 1) * (10 ^ ds.length * 10) := by ring

/-- Of two digit strings of one length the one with the smaller value comes first. -/
theorem lt_of_ofDigitChars_lt {ds es : List Char} (hd : ∀ c ∈ ds, c.isDigit) (he : ∀ c ∈ es, c.isDigit)
    (hlen : ds.length = es.length) {n : ℕ} (h : Nat.ofDigitChars 10 ds n < Nat.ofDigitChars 10 es n) : ds < es := by
  induction ds generalizing es n with
  | nil =>
    rw [List.length_nil] at hlen
    rw [List.length_eq_zero_iff.mp hlen.symm] at h
    exact absurd h (lt_irrefl _)
  | cons c ds ih =>
    cases es with
    | nil => cases hlen
    | cons e es =>
      have hdt : ∀ x ∈ ds, x.isDigit := fun x hx => hd x (List.mem_cons_of_mem _ hx)
      have het : ∀ x ∈ es, x.isDigit := fun x hx => he x (List.mem_cons_of_mem _ hx)
      have hl : ds.length = es.length := Nat.succ.inj hlen
      have hc := Char.isDigit_iff_toNat.mp (hd c List.mem_cons_self)
      have hce := Char.isDigit_iff_toNat.mp (he e List.mem_cons_self)
      rw [Nat.ofDigitChars_cons, Nat.ofDigitChars_cons] at h
      rcases lt_trichotomy c.toNat e.toNat with hlt | heq | hgt
      · exact List.cons_lt_cons_iff.mpr (.inl hlt)
      · rw [heq] at h
        have hchar : c = e := Char.toNat_inj.mp heq
        exact List.cons_lt_cons_iff.mpr (.inr ⟨hchar,ih hdt het hl h⟩)
      · -- a larger first digit cannot be made up for
        have hlo := (ofDigitChars_le hdt (10 * n + (c.toNat - '0'.toNat))).1
        have hhi := (ofDigitChars_le het (10 * n + (e.toNat - '0'.toNat))).2
        rw [hl] at hlo
        have hstep : (10 * n + (e.toNat - '0'.toNat) + 1) * 10 ^ es.length ≤
            (10 * n + (c.toNat - '0'.toNat)) * 10 ^ es.length := Nat.mul_le_mul_right _ (by omega)
        omega

/-- A smaller field decides the order, whatever follows it. -/
theorem append_lt_append {a b x y : List Char} (h : a < b) (hlen : a.length = b.length) : a ++ x < b ++ y := by
  induction a generalizing b with
  | nil =>
    rw [List.length_nil] at hlen
    rw [List.length_eq_zero_iff.mp hlen.symm] at h
    exact absurd h (List.not_lt_nil _)
  | cons c a ih =>
    cases b with
    | nil => cases hlen
    | cons d b =>
      rcases List.cons_lt_cons_iff.mp h with hlt | ⟨heq,hlt⟩
      · exact List.cons_lt_cons_iff.mpr (.inl hlt)
      · exact List.cons_lt_cons_iff.mpr (.inr ⟨heq,ih hlt (Nat.succ.inj hlen)⟩)

theorem cons_lt_cons_left_iff {c : Char} {x y : List Char} : c :: x < c :: y ↔ x < y := by
  rw [List.cons_lt_cons_iff]
  constructor
  · rintro (h | ⟨_,h⟩)
    · exact absurd h (Char.lt_irrefl c)
    · exact h
  · exact fun h => .inr ⟨rfl,h⟩

theorem append_lt_append_left_iff (a : List Char) {x y : List Char} : a ++ x < a ++ y ↔ x < y := by
  induction a with
  | nil => rfl
  | cons c a ih => rw [List.cons_append, List.cons_append, cons_lt_cons_left_iff, ih]

/-! ## Numbers of unequal length -/

/-- How a number of at most two digits sorts before a character greater than the digits. -/
def rank (n : ℕ) : ℕ := if n < 10 then 11 * n + 10 else 11 * (n / 10) + n % 10

theorem rank_inj {k l : ℕ} (hk : k < 100) (hl : l < 100) (h : rank k = rank l) : k = l := by
  unfold rank at h
  split at h <;> split at h <;> omega

theorem toDigits_of_lt_hundred {n : ℕ} (hten : 10 ≤ n) (h : n < 100) :
    Nat.toDigits 10 n = [Nat.digitChar (n / 10),Nat.digitChar (n % 10)] := by
  rw [Nat.toDigits_of_base_le (by omega) hten, Nat.toDigits_of_lt_base (by omega)]
  rfl

theorem digitChar_lt {a b : ℕ} (h : a < b) (hb : b < 10) : Nat.digitChar a < Nat.digitChar b := by
  have hca := Nat.toNat_digitChar_of_lt_ten (h.trans hb)
  have hcb := Nat.toNat_digitChar_of_lt_ten hb
  change (Nat.digitChar a).toNat < (Nat.digitChar b).toNat
  omega

theorem digitChar_lt_stop {a : ℕ} {c : Char} (ha : a < 10) (hc : '9' < c) : Nat.digitChar a < c := by
  have hca := Nat.toNat_digitChar_of_lt_ten ha
  have h9 : '9'.toNat = 57 := rfl
  have hlt : '9'.toNat < c.toNat := hc
  change (Nat.digitChar a).toNat < c.toNat
  omega

/-- The number of smaller rank comes first, whatever follows the separator. -/
theorem toDigits_append_lt {k l : ℕ} {c : Char} {x y : List Char} (hk : k < 100) (hl : l < 100) (hc : '9' < c)
    (h : rank k < rank l) : Nat.toDigits 10 k ++ c :: x < Nat.toDigits 10 l ++ c :: y := by
  unfold rank at h
  by_cases hk' : k < 10
  · rw [if_pos hk'] at h
    rw [Nat.toDigits_of_lt_base hk']
    by_cases hl' : l < 10
    · rw [if_pos hl'] at h
      rw [Nat.toDigits_of_lt_base hl']
      exact List.cons_lt_cons_iff.mpr (.inl (digitChar_lt (by omega) hl'))
    · rw [if_neg hl'] at h
      rw [toDigits_of_lt_hundred (by omega) hl]
      exact List.cons_lt_cons_iff.mpr (.inl (digitChar_lt (by omega) (by omega)))
  · rw [if_neg hk'] at h
    rw [toDigits_of_lt_hundred (by omega) hk]
    by_cases hl' : l < 10
    · rw [if_pos hl'] at h
      rw [Nat.toDigits_of_lt_base hl']
      rcases Nat.lt_or_ge (k / 10) l with hlt | hge
      · exact List.cons_lt_cons_iff.mpr (.inl (digitChar_lt hlt hl'))
      · have heq : k / 10 = l := by omega
        rw [heq]
        -- the second digit of the longer number stands against the separator
        exact List.cons_lt_cons_iff.mpr (.inr ⟨rfl,List.cons_lt_cons_iff.mpr (.inl (digitChar_lt_stop (by omega) hc))⟩)
    · rw [if_neg hl'] at h
      rw [toDigits_of_lt_hundred (by omega) hl]
      rcases Nat.lt_or_ge (k / 10) (l / 10) with hlt | hge
      · exact List.cons_lt_cons_iff.mpr (.inl (digitChar_lt hlt (by omega)))
      · have heq : k / 10 = l / 10 := by omega
        rw [heq]
        exact List.cons_lt_cons_iff.mpr
          (.inr ⟨rfl,List.cons_lt_cons_iff.mpr (.inl (digitChar_lt (by omega) (by omega)))⟩)

end Digits

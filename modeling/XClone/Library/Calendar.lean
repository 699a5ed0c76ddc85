import Mathlib.Order.Basic
import Mathlib.Tactic.Ring

/-! # The civil calendar

Days are numbered from the first day of 1970. Dates in the order of year, month and day
have increasing day numbers, so a day has one date.
-/
namespace Calendar

def Leap (year : ℕ) : Prop := year % 4 = 0 ∧ (year % 100 ≠ 0 ∨ year % 400 = 0)

instance (year : ℕ) : Decidable (Leap year) := inferInstanceAs (Decidable (_ ∧ _))

/-- The days of a month, January being month `0`. -/
def monthDays (year month : ℕ) : ℕ :=
  match month with
  | 1 => if Leap year then 29 else 28
  | 3 | 5 | 8 | 10 => 30
  | _ => 31

def daysBeforeMonth (year : ℕ) : ℕ → ℕ
  | 0 => 0
  | month+1 => daysBeforeMonth year month + monthDays year month

/-- The days of the first `n` years from 1970 on. -/
def daysBeforeYear : ℕ → ℕ
  | 0 => 0
  | n+1 => daysBeforeYear n + daysBeforeMonth (1970 + n) 12

/-- A date: `year` counts from 1970, `month` from `0`, `day` from `1`. -/
structure Date where
  year : ℕ
  month : ℕ
  day : ℕ
  month_lt : month < 12
  day_pos : 1 ≤ day
  day_le : day ≤ monthDays (1970 + year) month

def Date.number (d : Date) : ℕ := daysBeforeYear d.year + daysBeforeMonth (1970 + d.year) d.month + (d.day - 1)

theorem daysBeforeMonth_mono (year : ℕ) : Monotone (daysBeforeMonth year) :=
  monotone_nat_of_le_succ (fun _ => Nat.le_add_right _ _)

theorem daysBeforeYear_mono : Monotone daysBeforeYear :=
  monotone_nat_of_le_succ (fun _ => Nat.le_add_right _ _)

theorem monthDays_le (year month : ℕ) : monthDays year month ≤ 31 := by
  unfold monthDays
  split
  · split <;> omega
  all_goals omega

theorem daysBeforeYear_le (n : ℕ) : daysBeforeYear n ≤ 366 * n := by
  induction n with
  | zero => exact le_refl _
  | succ n ih =>
    have hyear : daysBeforeMonth (1970 + n) 12 ≤ 366 := by
      simp only [daysBeforeMonth, monthDays]
      split <;> omega
    rw [daysBeforeYear]
    omega

theorem Date.day_lt (d : Date) : d.day < 32 := by
  have hd := d.day_le
  have hm := monthDays_le (1970 + d.year) d.month
  omega

/-- A date lies within its month, and its month within its year. -/
theorem Date.number_lt_month (d : Date) :
    d.number < daysBeforeYear d.year + daysBeforeMonth (1970 + d.year) (d.month + 1) := by
  have hd := d.day_le
  have hp := d.day_pos
  rw [daysBeforeMonth, number]
  omega

theorem Date.number_lt_year (d : Date) : d.number < daysBeforeYear (d.year + 1) := by
  have hm : daysBeforeMonth (1970 + d.year) (d.month + 1) ≤ daysBeforeMonth (1970 + d.year) 12 :=
    daysBeforeMonth_mono _ d.month_lt
  have hd := d.number_lt_month
  rw [daysBeforeYear]
  omega

theorem Date.daysBeforeYear_le (d : Date) : daysBeforeYear d.year ≤ d.number := by
  rw [number, Nat.add_assoc]
  exact Nat.le_add_right _ _

/-- Earlier by year, then by month, then by day. -/
def Date.Before (d e : Date) : Prop :=
  d.year < e.year ∨ d.year = e.year ∧ (d.month < e.month ∨ d.month = e.month ∧ d.day < e.day)

theorem Date.Before.number_lt {d e : Date} (h : d.Before e) : d.number < e.number := by
  rcases h with hy | ⟨hy,hm | ⟨hm,hd⟩⟩
  · have hlt := d.number_lt_year
    have hle : daysBeforeYear (d.year + 1) ≤ daysBeforeYear e.year := daysBeforeYear_mono hy
    have he := e.daysBeforeYear_le
    omega
  · have hlt := d.number_lt_month
    have hle : daysBeforeMonth (1970 + d.year) (d.month + 1) ≤ daysBeforeMonth (1970 + d.year) e.month :=
      daysBeforeMonth_mono _ hm
    rw [hy] at hlt hle
    have he : e.number = daysBeforeYear e.year + daysBeforeMonth (1970 + e.year) e.month + (e.day - 1) := rfl
    omega
  · have hp := d.day_pos
    rw [number, number, hy, hm]
    omega

theorem Date.eq_or_before (d e : Date) :
    (d.year = e.year ∧ d.month = e.month ∧ d.day = e.day) ∨ d.Before e ∨ e.Before d := by
  unfold Before
  omega

theorem Date.before_of_number_lt {d e : Date} (h : d.number < e.number) : d.Before e := by
  rcases d.eq_or_before e with ⟨hy,hm,hd⟩ | hb | hb
  · rw [number, number, hy, hm, hd] at h
    exact absurd h (lt_irrefl _)
  · exact hb
  · exact absurd hb.number_lt (by omega)

/-- A day has one date. -/
theorem Date.fields_of_number_eq {d e : Date} (h : d.number = e.number) :
    d.year = e.year ∧ d.month = e.month ∧ d.day = e.day := by
  rcases d.eq_or_before e with he | hb | hb
  · exact he
  · exact absurd hb.number_lt (by omega)
  · exact absurd hb.number_lt (by omega)

theorem Date.number_eq_of_fields {d e : Date} (hy : d.year = e.year) (hm : d.month = e.month)
    (hd : d.day = e.day) : d.number = e.number := by
  rw [number, number, hy, hm, hd]

end Calendar

import Mathlib.Logic.Function.Basic
import Mathlib.Data.List.Nodup
import Mathlib.Data.Set.Insert

/-! # Directories in which values are put aside

A directory maps names to values. A shift takes the value away from one name and leaves some form of
it under another; an edit gives one name a new value, or none. Steps that leave alone what was put
aside before them, and put things aside under names that are free, lose nothing of it.
-/
namespace Archive
variable {K V : Type}

abbrev Directory (K V : Type) := K → Option V

inductive Step (K V : Type) where
  | idle
  | edit (name : K) (value : Option V)
  | shift (source target : K) (form : V → V)

variable [DecidableEq K]

/-- The directory after a value was moved. -/
def shifted (d : Directory K V) (source target : K) (z : V) : Directory K V :=
  Function.update (Function.update d source none) target (some z)

/-- What is moved through a free name is moved past it. -/
theorem shifted_shifted {d : Directory K V} {s t u : K} (hfree : d t = none) (hst : s ≠ t) (htu : t ≠ u) (z z' : V) :
    shifted (shifted d s t z) t u z' = shifted d s u z' := by
  unfold shifted
  rw [Function.update_idem]
  congr 1
  funext k
  by_cases hk : k = t
  · subst hk
    rw [Function.update_self, Function.update_of_ne (Ne.symm hst), hfree]
  · rw [Function.update_of_ne hk]

/-- A shift of nothing does nothing. -/
def Step.apply : Step K V → Directory K V → Directory K V
  | idle, d => d
  | edit name value, d => Function.update d name value
  | shift source target form, d => (d source).elim d (fun c => shifted d source target (form c))

/-- What a step puts aside. -/
def Step.deposit : Step K V → Directory K V → Option (K × V)
  | idle, _ => none
  | edit _ _, _ => none
  | shift source target form, d => (d source).map (fun c => (target,form c))

def run (w : List (Step K V)) (d : Directory K V) : Directory K V := w.foldl (fun d a => a.apply d) d

/-- All that a run puts aside, in order. -/
def deposits : List (Step K V) → Directory K V → List (K × V)
  | [], _ => []
  | a :: w, d => (a.deposit d).toList ++ deposits w (a.apply d)

/-- A step that leaves the names of `S` alone, and puts something aside only under a free name. -/
def Step.Careful (S : Set K) (d : Directory K V) : Step K V → Prop
  | idle => True
  | edit name _ => name ∉ S
  | shift source target _ => d source ≠ none → source ∉ S ∧ d target = none

/-- The names of `S` and that of what the step puts aside. -/
def Step.keeping (S : Set K) (d : Directory K V) (a : Step K V) : Set K := S ∪ {k | k ∈ (a.deposit d).map Prod.fst}

/-- Each step of a run is careful of what the steps before it put aside. -/
def Careful : Set K → List (Step K V) → Directory K V → Prop
  | _, [], _ => True
  | S, a :: w, d => a.Careful S d ∧ Careful (a.keeping S d) w (a.apply d)

section Steps
variable {S : Set K} {a : Step K V} {w : List (Step K V)} {d : Directory K V} {k : K} {z : V}

theorem Step.apply_kept (h : a.Careful S d) (hk : k ∈ S) (hz : d k = some z) : a.apply d k = some z := by
  cases a with
  | idle => exact hz
  | edit name value =>
    have hne : k ≠ name := by
      rintro rfl
      exact h hk
    exact (Function.update_of_ne hne _ _).trans hz
  | shift source target form =>
    rcases hd : d source with _ | c
    · simp only [apply, hd, Option.elim_none, hz]
    · obtain ⟨hs,hfree⟩ := h (by simp [hd])
      have hsource : k ≠ source := by
        rintro rfl
        exact hs hk
      have htarget : k ≠ target := by
        rintro rfl
        simp [hfree] at hz
      simp only [apply, hd, Option.elim_some, shifted]
      rw [Function.update_of_ne htarget, Function.update_of_ne hsource, hz]

theorem run_kept (h : Careful S w d) (hk : k ∈ S) (hz : d k = some z) : run w d k = some z := by
  induction w generalizing S d with
  | nil => exact hz
  | cons a w ih => exact ih h.2 (Set.mem_union_left _ hk) (Step.apply_kept h.1 hk hz)

/-- What a step puts aside is there behind it, under a name that was free. -/
theorem Step.apply_deposit (h : a.Careful S d) (hx : a.deposit d = some (k,z)) :
    k ∈ a.keeping S d ∧ d k = none ∧ a.apply d k = some z := by
  have hmem : k ∈ a.keeping S d := by
    right
    simp [hx]
  refine ⟨hmem,?_⟩
  cases a with
  | idle => cases hx
  | edit name value => cases hx
  | shift source target form =>
    rcases hd : d source with _ | c
    · simp [deposit, hd] at hx
    · simp only [deposit, hd, Option.map_some, Option.some.injEq, Prod.mk.injEq] at hx
      obtain ⟨rfl,rfl⟩ := hx
      obtain ⟨_,hfree⟩ := h (by simp [hd])
      refine ⟨hfree,?_⟩
      simp [apply, hd, shifted]

/-- All that was put aside is there at the end. -/
theorem deposits_kept (h : Careful S w d) : ∀ x ∈ deposits w d, run w d x.1 = some x.2 := by
  induction w generalizing S d with
  | nil => simp [deposits]
  | cons a w ih =>
    intro x hx
    rcases List.mem_append.mp hx with hx | hx
    · obtain ⟨hmem,_,hnow⟩ := Step.apply_deposit h.1 (Option.mem_toList.mp hx)
      have hend : run w (a.apply d) x.1 = some x.2 := run_kept h.2 hmem hnow
      exact hend
    · exact ih h.2 x hx

/-- Nothing is put aside under a name of `S` that is taken. -/
theorem deposits_free (h : Careful S w d) (hk : k ∈ S) (hz : d k = some z) : k ∉ (deposits w d).map Prod.fst := by
  induction w generalizing S d with
  | nil => simp [deposits]
  | cons a w ih =>
    intro hmem
    rw [deposits, List.map_append] at hmem
    rcases List.mem_append.mp hmem with hmem | hmem
    · obtain ⟨x,hx,rfl⟩ := List.mem_map.mp hmem
      obtain ⟨_,hfree,_⟩ := Step.apply_deposit h.1 (Option.mem_toList.mp hx)
      simp [hfree] at hz
    · exact ih h.2 (Set.mem_union_left _ hk) (Step.apply_kept h.1 hk hz) hmem

/-- No two values are put aside under one name. -/
theorem deposits_nodup (h : Careful S w d) : ((deposits w d).map Prod.fst).Nodup := by
  induction w generalizing S d with
  | nil => simp [deposits]
  | cons a w ih =>
    rcases hx : a.deposit d with _ | x
    · simpa [deposits, hx] using ih h.2
    · obtain ⟨hmem,_,hnow⟩ := Step.apply_deposit h.1 hx
      have hlater := deposits_free h.2 hmem hnow
      have hrest := ih h.2
      simp only [deposits, hx, Option.toList_some, List.singleton_append, List.map_cons]
      exact List.nodup_cons.mpr ⟨hlater,hrest⟩

end Steps

end Archive

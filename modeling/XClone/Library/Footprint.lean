import XClone.Library.Interleaving
import Mathlib.Data.List.Induction

/-! # Any number of threads, each within its own footprint

A thread is confined to a set of locations when every call still ahead of it stays within the
set. Threads whose footprints do not meet do not notice each other: under any schedule each
of them is where it would be after as many steps on its own.
-/
namespace Effects.Sharing
variable {C : Type} {R : C → Type} {L Loc V α ι : Type} (M : Sharing C R L Loc V)

/-- Calls of the contract stay within the footprint as long as the private state meets `I`. -/
structure Confines (A : C → Prop) (ok : (c : C) → R c → Prop) (I : L → Prop) (S : Loc → Prop) : Prop where
  answers : ∀ c l σ r, A c → I l → (M.act c (l,σ)).1 = some r → ok c r
  keeps : ∀ c l σ, A c → I l → I (M.act c (l,σ)).2.1
  within : ∀ c l ℓ, A c → I l → M.touch c l = some ℓ → S ℓ

/-- Whatever a thread is answered, it stays within the footprint. -/
def Confined (S : Loc → Prop) (t : Thread C R L α) : Prop :=
  ∃ (A : C → Prop) (ok : (c : C) → R c → Prop) (I : L → Prop),
    M.Confines A ok I S ∧ I t.priv ∧ ∀ p, t.code = some p → Meets A ok (fun _ => True) p

section One
variable {M} {S : Loc → Prop} {t : Thread C R L α}

theorem Confined.touch (h : M.Confined S t) {ℓ : Loc} (hℓ : M.nextTouch t = some ℓ) : S ℓ := by
  obtain ⟨A,ok,I,hA,hI,hp⟩ := h
  rcases t with ⟨_ | p, l⟩
  · cases hℓ
  · cases p with
    | ret a => cases hℓ
    | call c k =>
      have hmeets := hp _ rfl
      exact hA.within c l ℓ hmeets.1 hI hℓ

theorem Confined.step (h : M.Confined S t) (σ : Loc → V) : M.Confined S (M.stepThread t σ).1 := by
  obtain ⟨A,ok,I,hA,hI,hp⟩ := h
  refine ⟨A,ok,I,hA,?_⟩
  rcases t with ⟨_ | p, l⟩
  · exact ⟨hI,hp⟩
  · cases p with
    | ret a => exact ⟨hI,hp⟩
    | call c k =>
      have hmeets := hp _ rfl
      have hkeep := hA.keeps c l σ hmeets.1 hI
      have hok := hA.answers c l σ
      simp only [stepThread]
      rcases hact : M.act c (l,σ) with ⟨_ | r, l', σ'⟩
      · rw [hact] at hkeep
        exact ⟨hkeep,fun p hn => by cases hn⟩
      · rw [hact] at hkeep hok
        refine ⟨hkeep,?_⟩
        rintro q ⟨rfl⟩
        exact hmeets.2 r (hok r hmeets.1 hI rfl)

/-- A run of its own changes nothing outside. -/
theorem Confined.finish_frame (h : M.Confined S t) (σ : Loc → V) {ℓ : Loc} (hℓ : ¬ S ℓ) : (M.finish t σ).2 ℓ = σ ℓ := by
  apply M.finish_frame
  intro hin
  rcases t with ⟨_ | p, l⟩
  · cases hin
  · change ℓ ∈ M.touched p l σ at hin
    induction p generalizing l σ with
    | ret a => cases hin
    | call c k ih =>
      simp only [touched, List.mem_append, Option.mem_toList] at hin
      rcases hin with hin | hin
      · exact hℓ (h.touch hin)
      · have hnext := h.step σ
        simp only [stepThread] at hnext
        rcases hact : M.act c (l,σ) with ⟨_ | r, l', σ'⟩
        · rw [hact] at hin
          cases hin
        · rw [hact] at hin hnext
          exact ih r σ' l' hnext hin

end One

/-! ## Many threads -/

/-- Threads over one store. -/
structure Clients (ι : Type) (C : Type) (R : C → Type) (L Loc V α : Type) where
  threads : ι → Thread C R L α
  store : Loc → V

variable [DecidableEq ι]

def stepClient (s : Clients ι C R L Loc V α) (i : ι) : Clients ι C R L Loc V α :=
  let n := M.stepThread (s.threads i) s.store
  ⟨Function.update s.threads i n.1,n.2⟩

/-- Run a schedule, which names the thread that makes each next call. -/
def schedule (w : List ι) (s : Clients ι C R L Loc V α) : Clients ι C R L Loc V α := w.foldl M.stepClient s

/-- So many steps of one thread on its own. -/
def alone (t : Thread C R L α) (σ : Loc → V) : ℕ → Thread C R L α × (Loc → V)
  | 0 => (t,σ)
  | n+1 => M.stepThread (alone t σ n).1 (alone t σ n).2

section Alone
variable {M} {S : Loc → Prop} {t : Thread C R L α} (σ : Loc → V)

theorem Confined.alone (h : M.Confined S t) (n : ℕ) : M.Confined S (M.alone t σ n).1 := by
  induction n with
  | zero => exact h
  | succ n ih => exact ih.step _

variable (M t) in
/-- What is left to do ends where the whole ends. -/
theorem finish_alone (n : ℕ) : M.finish (M.alone t σ n).1 (M.alone t σ n).2 = M.finish t σ := by
  induction n with
  | zero => rfl
  | succ n ih => exact (M.finish_stepThread _ _).trans ih

end Alone

section Isolation
variable {M} {S : ι → Loc → Prop} {s : Clients ι C R L Loc V α}

/-- Each thread, and each footprint, is as it would be without the others. -/
theorem schedule_isolated (hdisj : ∀ i j, i ≠ j → ∀ ℓ, S i ℓ → ¬ S j ℓ) (hconf : ∀ i, M.Confined (S i) (s.threads i))
    (w : List ι) :
    (∀ i, (M.schedule w s).threads i = (M.alone (s.threads i) s.store (w.count i)).1 ∧
      ∀ ℓ, S i ℓ → (M.schedule w s).store ℓ = (M.alone (s.threads i) s.store (w.count i)).2 ℓ) ∧
    ∀ ℓ, (∀ i, ¬ S i ℓ) → (M.schedule w s).store ℓ = s.store ℓ := by
  induction w using List.reverseRecOn with
  | nil => exact ⟨fun i => ⟨rfl,fun _ _ => rfl⟩,fun _ _ => rfl⟩
  | append_singleton w j ih =>
    obtain ⟨hown,hother⟩ := ih
    have hlast : M.schedule (w ++ [j]) s = M.stepClient (M.schedule w s) j := by
      rw [schedule, List.foldl_append]
      rfl
    have hthread := (hown j).1
    have hconfined : M.Confined (S j) ((M.schedule w s).threads j) := by
      rw [hthread]
      exact (hconf j).alone _ _
    have htouch : ∀ ℓ, M.nextTouch ((M.schedule w s).threads j) = some ℓ → S j ℓ := fun ℓ hℓ => hconfined.touch hℓ
    -- off the footprint of the thread that moves nothing changes
    have hframe : ∀ ℓ, ¬ S j ℓ → (M.stepClient (M.schedule w s) j).store ℓ = (M.schedule w s).store ℓ :=
      fun ℓ hℓ => M.stepThread_frame _ _ (fun ht => hℓ (htouch ℓ ht))
    obtain ⟨hsame,hstore⟩ := M.stepThread_congr ((M.schedule w s).threads j) (fun ℓ hℓ => (hown j).2 ℓ (htouch ℓ hℓ))
    rw [hlast]
    refine ⟨fun i => ?_,fun ℓ hℓ => (hframe ℓ (hℓ j)).trans (hother ℓ hℓ)⟩
    by_cases hi : i = j
    · subst hi
      have hcount : (w ++ [i]).count i = w.count i + 1 := by simp
      rw [hcount, Sharing.alone, ← hthread]
      refine ⟨(Function.update_self _ _ _).trans hsame,fun ℓ hℓ => ?_⟩
      by_cases ht : M.nextTouch ((M.schedule w s).threads i) = some ℓ
      · exact hstore ℓ ht
      · exact (M.stepThread_frame _ _ ht).trans (((hown i).2 ℓ hℓ).trans (M.stepThread_frame _ _ ht).symm)
    · have hcount : (w ++ [j]).count i = w.count i := by simp [Ne.symm hi]
      rw [hcount]
      refine ⟨(Function.update_of_ne hi _ _).trans (hown i).1,fun ℓ hℓ => ?_⟩
      exact (hframe ℓ (fun hj => hdisj i j hi ℓ hℓ hj)).trans ((hown i).2 ℓ hℓ)

/-- A thread that has come to its end left in its footprint what it leaves there on its own. -/
theorem schedule_finished (hdisj : ∀ i j, i ≠ j → ∀ ℓ, S i ℓ → ¬ S j ℓ) (hconf : ∀ i, M.Confined (S i) (s.threads i))
    {w : List ι} {i : ι} (hend : Thread.Finished ((M.schedule w s).threads i)) :
    (M.schedule w s).threads i = (M.finish (s.threads i) s.store).1 ∧
      ∀ ℓ, S i ℓ → (M.schedule w s).store ℓ = (M.finish (s.threads i) s.store).2 ℓ := by
  obtain ⟨hthread,hstore⟩ := (schedule_isolated hdisj hconf w).1 i
  have hfinish := finish_alone M (s.threads i) s.store (w.count i)
  rw [hthread] at hend
  rw [M.finish_of_finished hend] at hfinish
  rw [hthread, ← hfinish]
  exact ⟨rfl,hstore⟩

end Isolation

end Effects.Sharing

import XClone.Library.Program

/-! # Runs with a log of observations

A view turns an answered call into what is written to a log. `Does` says how a run
ends and what it logged on the way; it composes like the programs do.
-/
namespace Effects
variable {C : Type} {R : C → Type} {S E α β : Type}

/-- The observations of a run, in order. The call in which the caller dies is not answered. -/
def Prog.log (view : (c : C) → R c → List E) (h : Handler C R S) : Prog C R α → S → List E
  | .ret _, _ => []
  | .call c k, s =>
    match h c s with
    | (some r, s') => view c r ++ log view h (k r) s'
    | (none, _) => []

section Logs
variable (view : (c : C) → R c → List E) (h : Handler C R S)

theorem Prog.log_bind (p : Prog C R α) (f : α → Prog C R β) (s : S) :
    (p >>= f).log view h s = p.log view h s ++ match p.run h s with
      | (some a, s') => (f a).log view h s'
      | (none, _) => [] := by
  induction p generalizing s with
  | ret a => rfl
  | call c k ih =>
    change Prog.log view h (.call c (fun r => k r >>= f)) s = _
    simp only [Prog.run, Prog.log]
    rcases h c s with ⟨_ | r, s'⟩
    · rfl
    · simp only [List.append_assoc]
      exact congrArg (view c r ++ ·) (ih r s')

/-- A run of `p` from `s` logs `es` and ends in `s'`, with a result or dead. -/
structure Does (p : Prog C R α) (s : S) (es : List E) (a : Option α) (s' : S) : Prop where
  run : p.run h s = (a,s')
  log : p.log view h s = es

variable {view h}

theorem Does.pure (a : α) (s : S) : Does view h (Pure.pure a : Prog C R α) s [] (some a) s := ⟨rfl,rfl⟩

theorem Does.call {c : C} {s s' : S} {r : R c} (hc : h c s = (some r,s')) :
    Does view h (Prog.perform c) s (view c r) (some r) s' := by
  constructor
  · rw [Prog.run_perform, hc]
  · simp only [Prog.perform, Prog.log, hc, List.append_nil]

theorem Does.dead {c : C} {s s' : S} (hc : h c s = (none,s')) :
    Does view h (Prog.perform c) s [] none s' := by
  constructor
  · rw [Prog.run_perform, hc]
  · simp only [Prog.perform, Prog.log, hc]

section Sequence
variable {p : Prog C R α} {f : α → Prog C R β} {s s' s'' : S} {es es' : List E} {a : α} {b : Option β}

theorem Does.bind (hp : Does view h p s es (some a) s') (hf : Does view h (f a) s' es' b s'') :
    Does view h (p >>= f) s (es ++ es') b s'' := by
  constructor
  · rw [Prog.run_bind_some hp.run, hf.run]
  · rw [Prog.log_bind, hp.run, hp.log]
    exact congrArg (es ++ ·) hf.log

theorem Does.bind_dead (hp : Does view h p s es none s') : Does view h (p >>= f) s es none s' := by
  constructor
  · rw [Prog.run_bind_none hp.run]
  · rw [Prog.log_bind, hp.run, hp.log]
    exact List.append_nil es

end Sequence

theorem Does.of_run_log (p : Prog C R α) (s : S) :
    Does view h p s (p.log view h s) (p.run h s).1 (p.run h s).2 := ⟨rfl,rfl⟩

/-- What every answered call shows, a whole run shows. -/
theorem Meets.log_spec {A : C → Prop} {ok : (c : C) → R c → Prop} {Q : α → Prop} {I : S → Prop} {W : E → Prop}
    {p : Prog C R α} {s : S} (hok : ∀ c s r, A c → I s → (h c s).1 = some r → ok c r)
    (hI : ∀ c s, A c → I s → I (h c s).2) (hW : ∀ c r, A c → ok c r → ∀ e ∈ view c r, W e)
    (hp : Meets A ok Q p) (hs : I s) : ∀ e ∈ p.log view h s, W e := by
  induction p generalizing s with
  | ret a =>
    intro e he
    cases he
  | call c k ih =>
    have hn := hI c s hp.1 hs
    have ho := hok c s
    intro e he
    simp only [Prog.log] at he
    rcases hh : h c s with ⟨_ | r, s'⟩
    · rw [hh] at he
      cases he
    · rw [hh] at hn ho he
      have hr := ho r hp.1 hs rfl
      rcases List.mem_append.mp he with he | he
      · exact hW c r hp.1 hr e he
      · exact ih r (hp.2 r hr) hn e he

end Logs

end Effects

import Mathlib.Data.List.Basic
import Mathlib.Control.Basic

/-! # Finite programs over a signature of calls

A program is a tree of calls; the answer of a call selects the subtree that runs
next. A handler gives the calls their meaning on a state, and may kill the caller.
The same tree is run to its end, observed call by call, or interleaved with
another one, so that a program text is written only once.
-/
namespace Effects

/-- Programs with result type `α`; the call `c` is answered by a value of type `R c`. -/
inductive Prog (C : Type) (R : C → Type) (α : Type) where
  | ret (a : α)
  | call (c : C) (k : R c → Prog C R α)

/-- A handler answers a call and moves the state; `none` means that the caller dies in it. -/
abbrev Handler (C : Type) (R : C → Type) (S : Type) := (c : C) → S → Option (R c) × S

variable {C : Type} {R : C → Type} {S α β : Type}

namespace Prog

protected def bind : Prog C R α → (α → Prog C R β) → Prog C R β
  | ret a, f => f a
  | call c k, f => call c (fun r => (k r).bind f)

instance : Monad (Prog C R) where
  pure := ret
  bind := Prog.bind

/-- The program that makes one call and returns its answer. -/
def perform (c : C) : Prog C R (R c) := call c ret

def run (h : Handler C R S) : Prog C R α → S → Option α × S
  | ret a, s => (some a, s)
  | call c k, s =>
    match h c s with
    | (some r, s') => run h (k r) s'
    | (none, s') => (none, s')

/-- The calls made by a run, each with the state it was made in. -/
def trace (h : Handler C R S) : Prog C R α → S → List (C × S)
  | ret _, _ => []
  | call c k, s =>
    match h c s with
    | (some r, s') => (c,s) :: trace h (k r) s'
    | (none, _) => [(c,s)]

@[simp] theorem run_pure (h : Handler C R S) (a : α) (s : S) :
    run h (pure a : Prog C R α) s = (some a,s) := rfl

theorem pure_bind' (a : α) (f : α → Prog C R β) : (pure a >>= f) = f a := rfl

theorem bind_assoc' {γ : Type} (p : Prog C R α) (f : α → Prog C R β) (g : β → Prog C R γ) :
    (p >>= f >>= g) = (p >>= fun a => f a >>= g) := by
  induction p with
  | ret a => rfl
  | call c k ih => exact congrArg (call c) (funext ih)

theorem id_map' (p : Prog C R α) : id <$> p = p := by
  induction p with
  | ret a => rfl
  | call c k ih => exact congrArg (call c) (funext ih)

instance : LawfulMonad (Prog C R) := LawfulMonad.mk' _ id_map' pure_bind' bind_assoc'

/-- Running a sequence runs its first part, and the second from where that ended. -/
theorem run_bind (h : Handler C R S) (p : Prog C R α) (f : α → Prog C R β) (s : S) :
    run h (p >>= f) s = match run h p s with
      | (some a, s') => run h (f a) s'
      | (none, s') => (none, s') := by
  induction p generalizing s with
  | ret a => rfl
  | call c k ih =>
    change run h (call c (fun r => k r >>= f)) s = _
    simp only [run]
    rcases h c s with ⟨_ | r, s'⟩
    · rfl
    · exact ih r s'

theorem trace_bind (h : Handler C R S) (p : Prog C R α) (f : α → Prog C R β) (s : S) :
    trace h (p >>= f) s = trace h p s ++ match run h p s with
      | (some a, s') => trace h (f a) s'
      | (none, _) => [] := by
  induction p generalizing s with
  | ret a => rfl
  | call c k ih =>
    change trace h (call c (fun r => k r >>= f)) s = _
    simp only [run, trace]
    rcases h c s with ⟨_ | r, s'⟩
    · rfl
    · simp only [List.cons_append]
      exact congrArg ((c,s) :: ·) (ih r s')

theorem run_bind_some {h : Handler C R S} {p : Prog C R α} {f : α → Prog C R β} {s s' : S} {a : α}
    (hp : run h p s = (some a,s')) : run h (p >>= f) s = run h (f a) s' := by
  rw [run_bind, hp]

theorem run_bind_none {h : Handler C R S} {p : Prog C R α} {f : α → Prog C R β} {s s' : S}
    (hp : run h p s = (none,s')) : run h (p >>= f) s = (none,s') := by
  rw [run_bind, hp]

@[simp] theorem run_perform (h : Handler C R S) (c : C) (s : S) :
    run h (perform c : Prog C R (R c)) s = h c s := by
  simp only [perform, run]
  rcases h c s with ⟨_ | r, s'⟩ <;> rfl

@[simp] theorem trace_perform (h : Handler C R S) (c : C) (s : S) :
    trace h (perform c : Prog C R (R c)) s = [(c,s)] := by
  simp only [perform, trace]
  rcases h c s with ⟨_ | r, s'⟩ <;> rfl

end Prog

/-! ## Contracts on the calls of a program

`Meets A ok Q p` says that every call of `p` is allowed by `A`, and its result meets
`Q`, whatever the answers are, as long as each of them meets `ok`. No state is
involved, so the rule is the same under every schedule and every fault. -/
section Contracts
variable (A : C → Prop) (ok : (c : C) → R c → Prop)

def Meets (Q : α → Prop) : Prog C R α → Prop
  | .ret a => Q a
  | .call c k => A c ∧ ∀ r, ok c r → Meets Q (k r)

variable {A ok}

theorem Meets.pure {Q : α → Prop} {a : α} (ha : Q a) : Meets A ok Q (pure a : Prog C R α) := ha

theorem Meets.perform {c : C} {Q : R c → Prop} (hc : A c) (hr : ∀ r, ok c r → Q r) :
    Meets A ok Q (Prog.perform c : Prog C R (R c)) := ⟨hc,hr⟩

theorem Meets.bind {Q : α → Prop} {Q' : β → Prop} {p : Prog C R α} {f : α → Prog C R β}
    (hp : Meets A ok Q p) (hf : ∀ a, Q a → Meets A ok Q' (f a)) : Meets A ok Q' (p >>= f) := by
  induction p with
  | ret a => exact hf a hp
  | call c k ih => exact ⟨hp.1,fun r hr => ih r (hp.2 r hr)⟩

section Runs
variable {h : Handler C R S} {I : S → Prop} {Q : α → Prop} {p : Prog C R α} {s : S}

/-- The run rule: what every allowed call preserves, a whole run preserves, and its
result meets the contract. Answers only have to be as announced where `I` holds. -/
theorem Meets.run_spec (hok : ∀ c s r, A c → I s → (h c s).1 = some r → ok c r)
    (hI : ∀ c s, A c → I s → I (h c s).2) (hp : Meets A ok Q p) (hs : I s) :
    I (p.run h s).2 ∧ ∀ a, (p.run h s).1 = some a → Q a := by
  induction p generalizing s with
  | ret a =>
    refine ⟨hs,?_⟩
    rintro b ⟨rfl⟩
    exact hp
  | call c k ih =>
    have hn := hI c s hp.1 hs
    have ho := hok c s
    simp only [Prog.run]
    rcases hh : h c s with ⟨_ | r, s'⟩
    · rw [hh] at hn
      exact ⟨hn,fun a ha => by cases ha⟩
    · rw [hh] at hn ho
      exact ih r (hp.2 r (ho r hp.1 hs rfl)) hn

theorem Meets.run_preserves (hok : ∀ c s r, A c → I s → (h c s).1 = some r → ok c r)
    (hI : ∀ c s, A c → I s → I (h c s).2) (hp : Meets A ok Q p) (hs : I s) : I (p.run h s).2 :=
  (hp.run_spec hok hI hs).1

/-- Every call of a run is an allowed one, and is made where the invariant holds. -/
theorem Meets.trace_spec (hok : ∀ c s r, A c → I s → (h c s).1 = some r → ok c r)
    (hI : ∀ c s, A c → I s → I (h c s).2) (hp : Meets A ok Q p) (hs : I s) {x : C × S}
    (hx : x ∈ p.trace h s) : A x.1 ∧ I x.2 := by
  induction p generalizing s with
  | ret a => cases hx
  | call c k ih =>
    have hn := hI c s hp.1 hs
    have ho := hok c s
    simp only [Prog.trace] at hx
    rcases hh : h c s with ⟨_ | r, s'⟩
    · rw [hh] at hx
      rw [List.mem_singleton.mp hx]
      exact ⟨hp.1,hs⟩
    · rw [hh] at hx hn ho
      rcases List.mem_cons.mp hx with rfl | hx
      · exact ⟨hp.1,hs⟩
      · exact ih r (hp.2 r (ho r hp.1 hs rfl)) hn hx

end Runs

end Contracts

/-! ## What an observer of some of the calls sees -/
section Observation
variable (sel : C → Bool) (h : Handler C R S)

def Prog.seen (p : Prog C R α) (s : S) : List (C × S) := (p.trace h s).filter (fun x => sel x.1)

/-- A program that never makes an observed call. -/
def Silent (p : Prog C R α) : Prop :=
  Meets (fun c => sel c = false) (fun _ _ => True) (fun _ => True) p

variable {sel h}

theorem Silent.seen_eq_nil {p : Prog C R α} (hp : Silent sel p) (s : S) : p.seen sel h s = [] := by
  apply List.filter_eq_nil_iff.mpr
  intro x hx
  have hall := hp.trace_spec (I := fun _ => True) (fun _ _ _ _ _ _ => trivial) (fun _ _ _ _ => trivial) trivial hx
  simp [hall.1]

theorem Silent.pure (a : α) : Silent sel (Pure.pure a : Prog C R α) := trivial

theorem Silent.bind {p : Prog C R α} {f : α → Prog C R β} (hp : Silent sel p)
    (hf : ∀ a, Silent sel (f a)) : Silent sel (p >>= f) := Meets.bind hp (fun a _ => hf a)

theorem Silent.perform {c : C} (hc : sel c = false) : Silent sel (Prog.perform c : Prog C R (R c)) :=
  Meets.perform hc (fun _ _ => trivial)

/-- Nothing is seen of a silent first part. -/
theorem Silent.seen_bind {p : Prog C R α} {f : α → Prog C R β} (hp : Silent sel p) {s s' : S} {a : α}
    (hr : p.run h s = (some a,s')) : (p >>= f).seen sel h s = (f a).seen sel h s' := by
  have hnil := hp.seen_eq_nil (h := h) s
  unfold Prog.seen at *
  rw [Prog.trace_bind, hr, List.filter_append, hnil, List.nil_append]

theorem Silent.seen_dead {p : Prog C R α} {f : α → Prog C R β} (hp : Silent sel p) {s s' : S}
    (hr : p.run h s = (none,s')) : (p >>= f).seen sel h s = [] := by
  have hnil := hp.seen_eq_nil (h := h) s
  unfold Prog.seen at *
  rw [Prog.trace_bind, hr, List.append_nil, hnil]

theorem seen_call {c : C} {f : R c → Prog C R β} (hc : sel c = false) {s s' : S} {r : R c}
    (hr : h c s = (some r,s')) : (Prog.perform c >>= f).seen sel h s = (f r).seen sel h s' :=
  (Silent.perform hc).seen_bind ((Prog.run_perform h c s).trans hr)

/-- After an observed call whose continuation is silent, exactly that call was seen. -/
theorem seen_call_of_silent {c : C} {f : R c → Prog C R β} (hc : sel c = true)
    (hf : ∀ a, Silent sel (f a)) (s : S) :
    (Prog.perform c >>= f).seen sel h s = [(c,s)] := by
  unfold Prog.seen
  rw [Prog.trace_bind, Prog.run_perform, Prog.trace_perform, List.filter_append, List.filter_singleton,
    hc, cond_true]
  rcases h c s with ⟨_ | r, s'⟩
  · rfl
  · have htail := (hf r).seen_eq_nil (h := h) s'
    unfold Prog.seen at htail
    simp only [htail, List.append_nil]

end Observation

end Effects

import XClone.Library.Program

/-! # Contracts that remember answers

A memory is brought up to date by every answer. `Heeds` says that each call of a program
is allowed by what is remembered when it is made, whatever the answers are; `Meets` is
the case without a memory.
-/
namespace Effects
variable {C : Type} {R : C → Type} {S G α β : Type}

section Memory
variable (next : (c : C) → R c → G → G)

/-- The calls of a run, also the one the caller dies in, each with what is remembered by then. -/
def Prog.remembered (h : Handler C R S) : Prog C R α → S → G → List (C × G)
  | .ret _, _, _ => []
  | .call c k, s, g =>
    match h c s with
    | (some r, s') => (c,g) :: remembered h (k r) s' (next c r g)
    | (none, _) => [(c,g)]

variable (A : C → G → Prop) (ok : (c : C) → R c → Prop)

def Heeds : Prog C R α → G → Prop
  | .ret _, _ => True
  | .call c k, g => A c g ∧ ∀ r, ok c r → Heeds (k r) (next c r g)

variable {next A ok}

theorem Heeds.pure (a : α) (g : G) : Heeds next A ok (pure a : Prog C R α) g := trivial

theorem Heeds.call {c : C} {f : R c → Prog C R β} {g : G} (hc : A c g)
    (hf : ∀ r, ok c r → Heeds next A ok (f r) (next c r g)) : Heeds next A ok (Prog.perform c >>= f) g := ⟨hc,hf⟩

/-- A first part that is allowed whatever is remembered. -/
theorem Heeds.bind {p : Prog C R α} {f : α → Prog C R β} (hp : ∀ g, Heeds next A ok p g)
    (hf : ∀ a g, Heeds next A ok (f a) g) (g : G) : Heeds next A ok (p >>= f) g := by
  have hpg := hp g
  clear hp
  induction p generalizing g with
  | ret a => exact hf a g
  | call c k ih => exact ⟨hpg.1,fun r hr => ih r _ (hpg.2 r hr)⟩

/-- A contract without a memory, where the memory never forbids what it allows. -/
theorem Meets.heeds {A' : C → Prop} {Q : α → Prop} {p : Prog C R α} (hp : Meets A' ok Q p) (hA : ∀ c g, A' c → A c g)
    (g : G) : Heeds next A ok p g := by
  induction p generalizing g with
  | ret a => trivial
  | call c k ih => exact ⟨hA c g hp.1,fun r hr => ih r (hp.2 r hr) _⟩

/-- Every call of a run is allowed by what is remembered there. -/
theorem Heeds.remembered_spec {h : Handler C R S} (hok : ∀ c s r, (h c s).1 = some r → ok c r) {p : Prog C R α} {g : G}
    (hp : Heeds next A ok p g) (s : S) : ∀ x ∈ p.remembered next h s g, A x.1 x.2 := by
  induction p generalizing s g with
  | ret a =>
    intro x hx
    cases hx
  | call c k ih =>
    have ho := hok c s
    intro x hx
    simp only [Prog.remembered] at hx
    rcases hh : h c s with ⟨_ | r, s'⟩
    · rw [hh] at hx
      rw [List.mem_singleton.mp hx]
      exact hp.1
    · rw [hh] at hx ho
      rcases List.mem_cons.mp hx with rfl | hx
      · exact hp.1
      · exact ih r (hp.2 r (ho r rfl)) s' x hx

end Memory

end Effects

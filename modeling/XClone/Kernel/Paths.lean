import Mathlib.Data.List.Basic

/-! # Walking a path

A name is looked up component by component, from the root or from the working directory. Symbolic
links are left out, so the text of the name decides where the walk ends.
-/
namespace XClone

/-- C strings that name files. -/
abbrev Path := List Char

/-- One step of a walk that has come down through `dirs`, the innermost first. -/
def enter (dirs : List Path) (name : Path) : List Path :=
  if name = [] ∨ name = ['.'] then dirs
  else if name = ['.','.'] then dirs.tail
  else name :: dirs

/-- The walk along a path, with the characters `name` of the current component already read. -/
def walk : List Path → Path → Path → List Path
  | dirs, name, [] => enter dirs name
  | dirs, name, c :: path => if c = '/' then walk (enter dirs name) [] path else walk dirs (name ++ [c]) path

/-- The absolute path of where a walk has come to. -/
def absolute (dirs : List Path) : Path := if dirs = [] then ['/'] else dirs.reverse.flatMap (fun name => '/' :: name)

/-- The absolute path that a name stands for; relative names start from the working directory. -/
def resolve (cwd fname : Path) : Path :=
  match fname with
  | '/' :: _ => absolute (walk [] [] fname)
  | _ => absolute (walk (walk [] [] cwd) [] fname)

/-- The directory of an absolute path. -/
def parent (path : Path) : Path := absolute (walk [] [] path).tail

theorem walk_slash (dirs : List Path) (name p q : Path) :
    walk dirs name (p ++ '/' :: q) = walk (walk dirs name p) [] q := by
  induction p generalizing dirs name with
  | nil => simp [walk]
  | cons c p ih =>
    rw [List.cons_append, walk, walk]
    split
    · exact ih _ _
    · exact ih _ _

/-- Without a slash there is one component to go. -/
theorem walk_component {p : Path} (h : '/' ∉ p) (dirs : List Path) (name : Path) :
    walk dirs name p = enter dirs (name ++ p) := by
  induction p generalizing name with
  | nil => simp [walk]
  | cons c p ih =>
    obtain ⟨hc,hp⟩ := not_or.mp (List.mem_cons.not.mp h)
    have hne : ¬ c = '/' := fun heq => hc heq.symm
    rw [walk, if_neg hne, ih hp, List.append_assoc, List.singleton_append]

/-- Only names of dots are not entered. -/
theorem enter_of_mem {name : Path} {c : Char} (hc : c ∈ name) (hdot : c ≠ '.') (dirs : List Path) :
    enter dirs name = name :: dirs := by
  have hnil : name ≠ [] := List.ne_nil_of_mem hc
  have hone : name ≠ ['.'] := by
    rintro rfl
    exact hdot (List.mem_singleton.mp hc)
  have htwo : name ≠ ['.','.'] := by
    rintro rfl
    simp [hdot] at hc
  rw [enter, if_neg (not_or.mpr ⟨hnil,hone⟩), if_neg htwo]

theorem absolute_cons (name : Path) (dirs : List Path) : ∃ front, absolute (name :: dirs) = front ++ '/' :: name := by
  refine ⟨dirs.reverse.flatMap (fun name => '/' :: name),?_⟩
  simp [absolute]

/-- The last component of a walk, once it has more than dots in it. -/
theorem walk_suffix {s : Path} (hs : '/' ∉ s) {c : Char} (hc : c ∈ s) (hdot : c ≠ '.') (dirs : List Path) (name p : Path) :
    ∃ dirs' name', walk dirs name (p ++ s) = (name' ++ s) :: dirs' := by
  induction p generalizing dirs name with
  | nil =>
    refine ⟨dirs,name,?_⟩
    rw [List.nil_append, walk_component hs]
    exact enter_of_mem (List.mem_append_right _ hc) hdot dirs
  | cons c p ih =>
    rw [List.cons_append, walk]
    split
    · exact ih _ _
    · exact ih _ _

/-- Where the walk along a name begins. -/
theorem resolve_eq_absolute (cwd fname : Path) : ∃ dirs, resolve cwd fname = absolute (walk dirs [] fname) := by
  unfold resolve
  split
  · exact ⟨[],rfl⟩
  · exact ⟨walk [] [] cwd,rfl⟩

/-- A name keeps the end of its last component. -/
theorem resolve_suffix {s : Path} (hs : '/' ∉ s) {c : Char} (hc : c ∈ s) (hdot : c ≠ '.') (cwd p : Path) :
    ∃ front, resolve cwd (p ++ s) = front ++ s := by
  obtain ⟨dirs,hdirs⟩ := resolve_eq_absolute cwd (p ++ s)
  obtain ⟨dirs',name',hwalk⟩ := walk_suffix hs hc hdot dirs [] p
  obtain ⟨front,hfront⟩ := absolute_cons (name' ++ s) dirs'
  exact ⟨front ++ '/' :: name',by simp [hdirs, hwalk, hfront]⟩

/-- The last component of a name stays the last component. -/
theorem resolve_component {s : Path} (hs : '/' ∉ s) {c : Char} (hc : c ∈ s) (hdot : c ≠ '.') (cwd p : Path) :
    ∃ front, resolve cwd (p ++ '/' :: s) = front ++ '/' :: s := by
  obtain ⟨dirs,hdirs⟩ := resolve_eq_absolute cwd (p ++ '/' :: s)
  obtain ⟨front,hfront⟩ := absolute_cons s (walk dirs [] p)
  refine ⟨front,?_⟩
  rw [hdirs, walk_slash, walk_component hs, List.nil_append, enter_of_mem hc hdot, hfront]

end XClone

import XClone.Proc.Key
import XClone.Sync.Moves

/-! # The trashbin over a run of calls

Calls of `xclone2` come one after another; between them keys are set and files are created by others.
The disk, the memory of the kernel and the key pass from each to the next. While every call that
finds its file finds the name of its entry free, no entry is lost.
-/
namespace XClone
open Effects Prog

/-- What outlives a call: the disk, the memory of the kernel, and the key. -/
structure Machine where
  fs : Fs
  heap : Heap
  encKey : Ptr

/-- What a call finds around it: its process, the time, and what lies in the memory it will be given. -/
structure Surroundings where
  cwd : Path
  now : ℕ
  garbage : List (List Byte)
  stack : List Byte
  faults : Faults := {}

def Surroundings.task (around : Surroundings) (heap : Heap) : Task :=
  ⟨around.cwd,around.now,.userDs,heap,[],around.garbage,around.stack,around.faults⟩

inductive Action where
  | request (op : Operation) (fname : Path) (b1 : BitVec 32) (around : Surroundings)
  | writeKey (fails : EncKey.Faults) (buffer : List Byte)
  | create (path : Path) (content : List Byte)

namespace Machine

def request (m : Machine) (op : Operation) (fname : Path) (b1 : BitVec 32) (around : Surroundings) : Request :=
  ⟨op.word,fname,b1,m.encKey,around.task m.heap⟩

end Machine

namespace Action

def step (P : Platform) (fuel : ℕ) : Action → Machine → Machine
  | request op fname b1 around, m =>
    let done := (m.request op fname b1 around).alone P fuel m.fs
    ⟨done.2.2,done.2.1.heap,m.encKey⟩
  | writeKey fails buffer, m =>
    let done := EncKey.myProcWrite fails buffer m.heap m.encKey
    ⟨m.fs,done.2.1,done.2.2⟩
  | create path content, m => { m with fs := Function.update m.fs path ⟨(m.fs path).past,some content⟩ }

/-- The entry that a request leaves of the file it finds, with what it leaves there on a disk that holds nothing else. -/
def entry (P : Platform) (fuel : ℕ) : Action → Machine → Option (Path × Option (List Byte))
  | request op fname b1 around, m =>
    let q := m.request op fname b1 around
    (m.fs.entry q.original).map (fun c =>
      (q.entryPath P op,(q.after P fuel (Fs.ofList [(q.original,c)])).entry (q.entryPath P op)))
  | _, _ => none

/-- Nothing fails in the action: the key is there where it is used, `d_path` bears `NULL` where it is given one, the directories
of the new names are there, and the positions in the entry stay within an `int`. -/
def Smooth (P : Platform) (fuel : ℕ) : Action → Machine → Prop
  | request op fname b1 around, m =>
    let q := m.request op fname b1 around
    around.faults = {} ∧ ∀ c, m.fs.entry q.original = some c →
      (op.encrypts = true → (m.encKey.bind m.heap.live).isSome) ∧ (op = .move → P.dPathNull q.original = some q.original) ∧
      P.directory (parent (q.entryPath P op)) = true ∧
      (op = .encComp → P.directory (parent (resolve around.cwd tempTxt)) = true) ∧
      (op = .move → c.length < fuel) ∧ (op = .encrypt → c.length ≤ 2139095040)
  | _, _ => True

/-- A request for a file that is no entry of `S`, whose own entry, and `temp.txt` where it is used, are not there yet; a file
that is created is no entry of `S`. -/
def Free (P : Platform) (S : Set Path) : Action → Machine → Prop
  | request op fname b1 around, m =>
    let q := m.request op fname b1 around
    m.fs.entry q.original ≠ none → q.original ∉ S ∧ m.fs.entry (q.entryPath P op) = none ∧
      (op = .encComp → m.fs.entry (resolve around.cwd tempTxt) = none)
  | writeKey _ _, _ => True
  | create path _, _ => path ∉ S

end Action

section Runs
variable (P : Platform) (fuel : ℕ)

def runActions (w : List Action) (m : Machine) : Machine := w.foldl (fun m a => a.step P fuel m) m

/-- The entries of a run, in order. -/
def entries : List Action → Machine → List (Path × Option (List Byte))
  | [], _ => []
  | a :: w, m => (a.entry P fuel m).toList ++ entries w (a.step P fuel m)

/-- Nothing fails in the whole run. -/
def SmoothRun : List Action → Machine → Prop
  | [], _ => True
  | a :: w, m => a.Smooth P fuel m ∧ SmoothRun w (a.step P fuel m)

/-- Each step is free when it is made, of the entries of `S` and of those that the steps before it left. -/
def FreeRun : Set Path → List Action → Machine → Prop
  | _, [], _ => True
  | S, a :: w, m => a.Free P S m ∧ FreeRun (S ∪ {path | path ∈ (a.entry P fuel m).map Prod.fst}) w (a.step P fuel m)

/-- Every file that was moved has an entry of its own, which holds what its request wrote and nothing else. -/
def Keeps (w : List Action) (m : Machine) : Prop :=
  (∀ x ∈ entries P fuel w m, x.2 ≠ none ∧ (runActions P fuel w m).fs.entry x.1 = x.2) ∧
    ((entries P fuel w m).map Prod.fst).Nodup

end Runs

/-! ## What the actions mean for the directory -/

/-- What an action is for. -/
def Action.meaning (P : Platform) : Action → Machine → Archive.Step Path (List Byte)
  | request op fname b1 around, m =>
    let q := m.request op fname b1 around
    .shift q.original (q.entryPath P op) (q.form P op)
  | writeKey _ _, _ => .idle
  | create path content, _ => .edit path (some content)

def meanings (P : Platform) (fuel : ℕ) : List Action → Machine → List (Archive.Step Path (List Byte))
  | [], _ => []
  | a :: w, m => a.meaning P m :: meanings P fuel w (a.step P fuel m)

section Steps
variable {P : Platform} {fuel : ℕ} {S : Set Path} {a : Action} {w : List Action} {m : Machine}

/-- A request that finds its file is sound. -/
theorem Action.Smooth.sound {op : Operation} {fname : Path} {b1 : BitVec 32} {around : Surroundings} {c : List Byte}
    (hsmooth : (request op fname b1 around).Smooth P fuel m) (hfree : (request op fname b1 around).Free P S m)
    (hc : m.fs.entry (m.request op fname b1 around).original = some c) :
    (m.request op fname b1 around).Sound P fuel op m.fs := by
  obtain ⟨hfaults,hrest⟩ := hsmooth
  obtain ⟨hkey,hpath,hdir,htemp,hsmall⟩ := hrest c hc
  obtain ⟨-,hentry,hscratch⟩ := hfree (by simp [hc])
  refine ⟨rfl,hfaults,hkey,hpath,⟨hentry,hdir⟩,fun hop => ⟨hscratch hop,htemp hop⟩,?_⟩
  intro c' hc'
  obtain rfl := Option.some.inj (hc.symm.trans hc')
  exact hsmall

/-- What a sound request leaves of a file does not depend on the rest of the disk. -/
theorem Request.Sound.form_eq {q : Request} {op : Operation} {fs : Fs} {c : List Byte} (hq : q.Sound P fuel op fs)
    (hc : fs.entry q.original = some c) :
    (q.after P fuel (Fs.ofList [(q.original,c)])).entry (q.entryPath P op) = some (q.form P op c) := by
  have hothers : ∀ path, fs.entry path = none → (Fs.ofList [(q.original,c)]).entry path = none := by
    intro path hnone
    apply Fs.entry_ofList_of_ne
    rintro rfl
    rw [hc] at hnone
    cases hnone
  have hfile : (Fs.ofList [(q.original,c)]).entry q.original = some c := by
    simp [Fs.entry, Fs.ofList, Slot.holding]
  have hsound : q.Sound P fuel op (Fs.ofList [(q.original,c)]) := by
    refine ⟨hq.word,hq.faultless,hq.key,hq.path,⟨hothers _ hq.entry.free,hq.entry.directory⟩,fun hop => ?_,?_⟩
    · exact ⟨hothers _ (hq.scratch hop).free,(hq.scratch hop).directory⟩
    · intro c' hc'
      obtain rfl := Option.some.inj (hfile.symm.trans hc')
      exact hq.small c hc
  rw [hsound.after_entry P hfile]
  exact Function.update_self _ _ _

theorem Action.step_refines (hsmooth : a.Smooth P fuel m) (hfree : a.Free P S m) :
    (a.step P fuel m).fs.entry = (a.meaning P m).apply m.fs.entry := by
  cases a with
  | request op fname b1 around =>
    rcases hc : m.fs.entry (m.request op fname b1 around).original with _ | c
    · have hsame : (m.request op fname b1 around).after P fuel m.fs = m.fs := Request.after_missing P op rfl hsmooth.1 hc
      simp only [meaning, Archive.Step.apply, hc, Option.elim_none]
      exact congrArg Fs.entry hsame
    · simp only [meaning, Archive.Step.apply, hc, Option.elim_some]
      exact (hsmooth.sound hfree hc).after_entry P hc
  | writeKey fails buffer => rfl
  | create path content => exact Fs.entry_update m.fs path _

/-- The entry that a request leaves is what the directory puts aside. -/
theorem Action.entry_eq (hsmooth : a.Smooth P fuel m) (hfree : a.Free P S m) :
    a.entry P fuel m = ((a.meaning P m).deposit m.fs.entry).map (fun x => (x.1,some x.2)) := by
  cases a with
  | request op fname b1 around =>
    rcases hc : m.fs.entry (m.request op fname b1 around).original with _ | c
    · simp only [entry, meaning, Archive.Step.deposit, hc, Option.map_none]
    · have hform := (hsmooth.sound hfree hc).form_eq hc
      simp only [entry, meaning, Archive.Step.deposit, hc, Option.map_some, hform]
  | writeKey fails buffer => rfl
  | create path content => rfl

theorem Action.Free.careful (hfree : a.Free P S m) : (a.meaning P m).Careful S m.fs.entry := by
  cases a with
  | request op fname b1 around =>
    intro hc
    obtain ⟨hsource,hentry,-⟩ := hfree hc
    exact ⟨hsource,hentry⟩
  | writeKey fails buffer => trivial
  | create path content => exact hfree

end Steps

section Runs
variable {P : Platform} {fuel : ℕ} {S : Set Path} {w : List Action} {m : Machine}

/-- A run follows the directory, puts aside what the directory does, and is as careful. -/
theorem run_refines (hsmooth : SmoothRun P fuel w m) (hfree : FreeRun P fuel S w m) :
    (runActions P fuel w m).fs.entry = Archive.run (meanings P fuel w m) m.fs.entry ∧
    entries P fuel w m = (Archive.deposits (meanings P fuel w m) m.fs.entry).map (fun x => (x.1,some x.2)) ∧
    Archive.Careful S (meanings P fuel w m) m.fs.entry := by
  induction w generalizing S m with
  | nil => exact ⟨rfl,rfl,trivial⟩
  | cons a w ih =>
    obtain ⟨ha,hw⟩ := hsmooth
    obtain ⟨hfirst,hrest⟩ := hfree
    have hstep := Action.step_refines ha hfirst
    have hentry := Action.entry_eq ha hfirst
    have hkeeping : S ∪ {path | path ∈ (a.entry P fuel m).map Prod.fst} = (a.meaning P m).keeping S m.fs.entry := by
      rw [hentry, Option.map_map]
      rfl
    rw [hkeeping] at hrest
    obtain ⟨hrun,hentries,hcareful⟩ := ih hw hrest
    rw [hstep] at hrun hentries hcareful
    refine ⟨hrun,?_,hfirst.careful,hcareful⟩
    rw [entries, hentries, hentry, meanings, Archive.deposits, List.map_append]
    congr 1
    cases (a.meaning P m).deposit m.fs.entry <;> rfl

end Runs

/-- In a run of calls in which nothing fails, and each of which finds its entry free, every file that was moved still has its own
entry at the end, with what its own request wrote. -/
theorem trashbin_keeps (P : Platform) (fuel : ℕ) (w : List Action) (m : Machine) (hsmooth : SmoothRun P fuel w m)
    (hfree : FreeRun P fuel ∅ w m) : Keeps P fuel w m := by
  obtain ⟨hrun,hentries,hcareful⟩ := run_refines hsmooth hfree
  have hkept := Archive.deposits_kept hcareful
  have hnodup := Archive.deposits_nodup hcareful
  unfold Keeps
  rw [hentries, hrun]
  constructor
  · intro x hx
    obtain ⟨y,hy,rfl⟩ := List.mem_map.mp hx
    exact ⟨Option.some_ne_none _,hkept y hy⟩
  · rw [List.map_map]
    exact hnodup

section Again

/-- A disk with one file of one byte, and no key yet. -/
def fresh : Machine := ⟨Fs.ofList [(['/','a'],[1])],Heap.empty,none⟩

def atRoot : Surroundings := ⟨['/'],0,[],[],{}⟩

/-- Within one minute a key is set, `/a` is compressed, created again and encrypted. -/
theorem trashbin_keeps_suffixes :
    Keeps .bare 2 [.writeKey {} [107],.request .compress ['/','a'] 4083 atRoot,.create ['/','a'] [2],
      .request .encrypt ['/','a'] 4085 atRoot] fresh := by
  have hfirst : Fs.entry (Fs.ofList [(['/','a'],[1])]) ['/','a'] = some [1] := rfl
  refine trashbin_keeps .bare 2 _ _ ⟨trivial,⟨rfl,fun c hc => ?_⟩,trivial,⟨rfl,fun c hc => ?_⟩,trivial⟩
    ⟨trivial,fun _ => ⟨by simp [Action.entry],by decide +kernel,fun h => by cases h⟩,?_,fun _ => ⟨?_,by decide +kernel,fun h => by cases h⟩,trivial⟩
  · obtain rfl := Option.some.inj (hfirst.symm.trans hc)
    exact ⟨(fun h => by cases h),(fun h => by cases h),rfl,(fun h => by cases h),(fun h => by cases h),(fun h => by cases h)⟩
  · obtain rfl : [2] = c := by
      apply Option.some.inj
      rw [← hc]
      decide +kernel
    exact ⟨fun _ => by decide +kernel,(fun h => by cases h),rfl,(fun h => by cases h),(fun h => by cases h),fun _ => by decide⟩
  · rintro ((h | h) | h)
    · exact h
    · cases h
    · exact absurd h (by decide +kernel)
  · rintro (((h | h) | h) | h)
    · exact h
    · cases h
    · exact absurd h (by decide +kernel)
    · cases h

/-- A file that is compressed again within the minute takes the place of the first. -/
theorem trashbin_loses :
    ¬ Keeps .bare 2 [.request .compress ['/','a'] 4083 atRoot,.create ['/','a'] [2],.request .compress ['/','a'] 4083 atRoot]
      fresh := by
  intro h
  have hfirst := h.1 _ List.mem_cons_self
  revert hfirst
  decide +kernel

end Again

end XClone

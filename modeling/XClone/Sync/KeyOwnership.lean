import XClone.Sync.Resources
import XClone.Sync.Trashbin

/-! # Who owns the key

A write to the entry of the key releases the key before it; an encryption releases the key it was
given, and `enc_key` goes on pointing at it. The cells of a run are accounted for up to that release.
-/
namespace XClone
open Effects Prog

/-! ## What is added to a heap -/

/-- All that was allocated still is, and nothing was freed twice. -/
structure Heap.Grows (h h' : Heap) : Prop where
  live : ∀ a bytes, h.live a = some bytes → h'.live a = some bytes
  doubleFree : h'.doubleFree = h.doubleFree

/-- Cells that are there now and were not then, each listed once. -/
structure Heap.Gained (h h' : Heap) (cells : List ℕ) : Prop where
  fresh : ∀ a ∈ cells, h.live a = none
  live : ∀ a ∈ cells, h'.live a ≠ none
  nodup : cells.Nodup

section Heaps
variable {h h' h'' : Heap} {cells : List ℕ}

theorem Heap.Grows.refl (h : Heap) : h.Grows h := ⟨fun _ _ ha => ha,rfl⟩

theorem Heap.Grows.trans (hg : h.Grows h') (hg' : h'.Grows h'') : h.Grows h'' where
  live a bytes ha := hg'.live a bytes (hg.live a bytes ha)
  doubleFree := hg'.doubleFree.trans hg.doubleFree

theorem Heap.Gained.nil (h h' : Heap) : h.Gained h' [] := ⟨by simp,by simp,List.nodup_nil⟩

theorem Heap.Gained.grows (hc : h.Gained h' cells) (hg : h'.Grows h'') : h.Gained h'' cells where
  fresh := hc.fresh
  nodup := hc.nodup
  live := by
    intro a ha hnone
    obtain ⟨bytes,hbytes⟩ := Option.ne_none_iff_exists'.mp (hc.live a ha)
    rw [hg.live a bytes hbytes] at hnone
    cases hnone

/-- A gained cell may be released, once. -/
theorem Heap.Grows.free {a : ℕ} (hg : h.Grows h') (hc : h.Gained h' (a :: cells)) :
    h.Grows (h'.free (some a)) ∧ h.Gained (h'.free (some a)) cells := by
  obtain ⟨hfresh,hlive,hnodup⟩ := hc
  obtain ⟨hnot,hnodup⟩ := List.nodup_cons.mp hnodup
  have hsome : (h'.live a).isSome = true := Option.isSome_iff_ne_none.mpr (hlive a List.mem_cons_self)
  refine ⟨⟨?_,?_⟩,⟨?_,?_,hnodup⟩⟩
  · intro b bytes hb
    have hne : b ≠ a := by
      rintro rfl
      rw [hfresh b List.mem_cons_self] at hb
      cases hb
    rw [Heap.free_live_of_ne h' hne]
    exact hg.live b bytes hb
  · rw [Heap.free, if_pos hsome]
    exact hg.doubleFree
  · intro b hb
    exact hfresh b (List.mem_cons_of_mem a hb)
  · intro b hb
    have hne : b ≠ a := by
      rintro rfl
      exact hnot hb
    rw [Heap.free_live_of_ne h' hne]
    exact hlive b (List.mem_cons_of_mem a hb)

end Heaps

/-- A call that is no release adds to the heap. -/
theorem handle_grows (P : Platform) (c : Call) (s : Kernel) (hc : ∀ q, c ≠ .kfree q) :
    s.1.heap.Grows (Kernel.handle P c s).2.1.heap := by
  obtain ⟨t,fs⟩ := s
  cases c with
  | kfree q => exact absurd rfl (hc q)
  | kmalloc size =>
    obtain ⟨r,t',hmalloc,halloc⟩ := kmalloc_spec P size t fs
    have hbec := kmalloc_becomes P t fs size
    rw [hmalloc] at hbec ⊢
    exact ⟨hbec.live,halloc.doubleFree⟩
  | _ =>
    simp only [Kernel.handle]
    repeat' split
    all_goals exact Heap.Grows.refl _

/-! ## Programs that account for their cells -/

/-- Neither a release nor the read of a string. -/
def Call.Neutral (c : Call) : Prop := (∀ q, c ≠ .kfree q) ∧ ∀ q, c ≠ .readString q

/-- In a run that does not come to a release of the key, `p` keeps all that was there; of what was not, it releases the `cells`
and what it allocates itself, each once at most. The only string it reads is the key. -/
def Accounts {α : Type} (P : Platform) (key : Ptr) (cells : List ℕ) (p : KProg α) : Prop :=
  ∀ (h : Heap) (s : Kernel), h.Grows s.1.heap → h.Gained s.1.heap cells →
    (∀ x ∈ p.trace (Kernel.handle P) s, x.1 = .kfree key → key = none) →
    h.Grows (p.run (Kernel.handle P) s).2.1.heap ∧
      ∀ x ∈ p.trace (Kernel.handle P) s, ∀ q, x.1 = .readString q → q = key ∧ h.Grows x.2.1.heap

section Rules
variable {P : Platform} {key : Ptr} {cells : List ℕ} {α β : Type}

namespace Accounts

theorem pure (a : α) : Accounts P key cells (Pure.pure a : KProg α) := by
  intro h s hg hc hkey
  refine ⟨hg,fun x hx => ?_⟩
  cases hx

/-- The first part has released all of the cells that it released. -/
theorem seq {p : KProg α} {f : α → KProg β} (hp : Accounts P key cells p) (hf : ∀ a, Accounts P key [] (f a)) :
    Accounts P key cells (p >>= f) := by
  intro h s hg hc hkey
  rw [trace_bind] at hkey ⊢
  obtain ⟨hgrows,hreads⟩ := hp h s hg hc (fun x hx => hkey x (List.mem_append_left _ hx))
  rw [run_bind]
  rcases hrun : p.run (Kernel.handle P) s with ⟨_ | a,s'⟩
  · rw [hrun] at hgrows
    refine ⟨hgrows,fun x hx => hreads x ?_⟩
    simpa using hx
  · rw [hrun] at hgrows hkey
    obtain ⟨hlast,hlater⟩ := hf a h s' hgrows (Heap.Gained.nil h _) (fun x hx => hkey x (List.mem_append_right _ hx))
    refine ⟨hlast,fun x hx => ?_⟩
    rcases List.mem_append.mp hx with hx | hx
    · exact hreads x hx
    · exact hlater x hx

/-- The first part leaves the cells to the second. -/
theorem bind {p : KProg α} {f : α → KProg β} (hp : Accounts P key [] p) (hf : ∀ a, Accounts P key cells (f a)) :
    Accounts P key cells (p >>= f) := by
  intro h s hg hc hkey
  rw [trace_bind] at hkey ⊢
  have hfirst : ∀ x ∈ p.trace (Kernel.handle P) s, x.1 = .kfree key → key = none :=
    fun x hx => hkey x (List.mem_append_left _ hx)
  obtain ⟨hgrows,hreads⟩ := hp h s hg (Heap.Gained.nil h _) hfirst
  obtain ⟨hkept,-⟩ := hp s.1.heap s (Heap.Grows.refl _) (Heap.Gained.nil _ _) hfirst
  rw [run_bind]
  rcases hrun : p.run (Kernel.handle P) s with ⟨_ | a,s'⟩
  · rw [hrun] at hgrows
    refine ⟨hgrows,fun x hx => hreads x ?_⟩
    simpa using hx
  · rw [hrun] at hgrows hkey hkept
    obtain ⟨hlast,hlater⟩ := hf a h s' hgrows (hc.grows hkept) (fun x hx => hkey x (List.mem_append_right _ hx))
    refine ⟨hlast,fun x hx => ?_⟩
    rcases List.mem_append.mp hx with hx | hx
    · exact hreads x hx
    · exact hlater x hx

theorem call {c : Call} (hc : c.Neutral) : Accounts P key [] (kcall c) := by
  intro h s hg _ hkey
  rw [run_perform, trace_perform]
  refine ⟨hg.trans (handle_grows P c s hc.1),fun x hx q hq => ?_⟩
  rw [List.mem_singleton.mp hx] at hq
  exact absurd hq (hc.2 q)

theorem after {c : Call} {f : Answer c → KProg β} (hc : c.Neutral) (hf : ∀ r, Accounts P key cells (f r)) :
    Accounts P key cells (kcall c >>= f) := bind (call hc) hf

/-- The key is read where there is one. -/
theorem read {f : List Byte → KProg β} (hf : key ≠ none → ∀ bytes, Accounts P key cells (f bytes)) :
    Accounts P key cells (kcall (.readString key) >>= f) := by
  intro h s hg hc hkey
  obtain ⟨t,fs⟩ := s
  have hhere : ∀ x : Call × Kernel, x = (.readString key,(t,fs)) → ∀ q, x.1 = .readString q → q = key ∧ h.Grows x.2.1.heap := by
    rintro x rfl q hq
    exact ⟨(Call.readString.inj hq).symm,hg⟩
  rw [trace_bind, trace_perform] at hkey ⊢
  rw [run_bind]
  rw [run_perform] at hkey ⊢
  rcases hb : key.bind t.heap.live with _ | bytes
  · have hdead : Kernel.handle P (.readString key) (t,fs) = (none,t,fs) := by simp [Kernel.handle, hb]
    rw [hdead]
    refine ⟨hg,fun x hx => hhere x ?_⟩
    simpa using hx
  · have hread : Kernel.handle P (.readString key) (t,fs) = (some (cString bytes),t,fs) := by simp [Kernel.handle, hb]
    have hsome : key ≠ none := by
      rintro rfl
      cases hb
    rw [hread] at hkey ⊢
    obtain ⟨hlast,hlater⟩ := hf hsome _ h (t,fs) hg hc (fun x hx => hkey x (List.mem_append_right _ hx))
    refine ⟨hlast,fun x hx => ?_⟩
    rcases List.mem_append.mp hx with hx | hx
    · exact hhere x (List.mem_singleton.mp hx)
    · exact hlater x hx

/-- What is allocated may be released later. -/
theorem alloc {size : ℕ} {f : Option Buf → KProg β}
    (hf : ∀ r : Option Buf, Accounts P key (cells ++ (r.map Buf.addr).toList) (f r)) :
    Accounts P key cells (kcall (.kmalloc size) >>= f) := by
  intro h s hg hc hkey
  obtain ⟨t,fs⟩ := s
  obtain ⟨r,t',hmalloc,halloc⟩ := kmalloc_spec P size t fs
  have hgrows := handle_grows P (.kmalloc size) (t,fs) (fun q hq => by cases hq)
  rw [hmalloc] at hgrows
  have hmore : h.Gained t'.heap (cells ++ (r.map Buf.addr).toList) := by
    have hold := hc.grows hgrows
    cases r with
    | none => simpa using hold
    | some b =>
      obtain ⟨hnone,hsome⟩ := halloc.fresh b rfl
      have hnew : h.live b.addr = none := by
        rw [Option.eq_none_iff_forall_ne_some]
        intro bytes hbytes
        rw [hg.live _ bytes hbytes] at hnone
        cases hnone
      have hout : b.addr ∉ cells := fun hmem => hc.live _ hmem hnone
      refine ⟨?_,?_,?_⟩
      · simpa [or_imp, forall_and, hnew] using hold.fresh
      · simpa [or_imp, forall_and, hsome] using hold.live
      · simpa [List.nodup_append, hold.nodup] using fun a ha => (show a ≠ b.addr from fun he => hout (he ▸ ha))
  rw [trace_bind, run_perform, hmalloc] at hkey
  rw [trace_bind, run_bind, run_perform, hmalloc, trace_perform]
  obtain ⟨hlast,hlater⟩ := hf r h (t',fs) (hg.trans hgrows) hmore (fun x hx => hkey x (List.mem_append_right _ hx))
  refine ⟨hlast,fun x hx q hq => ?_⟩
  rcases List.mem_append.mp hx with hx | hx
  · rw [List.mem_singleton.mp hx] at hq
    cases hq
  · exact hlater x hx q hq

/-- A page is released, whether it is there or not. -/
theorem free (r : Option Buf) {p : KProg β} (hp : Accounts P key cells p) :
    Accounts P key ((r.map Buf.addr).toList ++ cells) (kcall (.kfree (r.map Buf.addr)) >>= fun _ => p) := by
  intro h s hg hc hkey
  obtain ⟨t,fs⟩ := s
  have hnow : h.Grows (t.heap.free (r.map Buf.addr)) ∧ h.Gained (t.heap.free (r.map Buf.addr)) cells := by
    cases r with
    | none => exact ⟨hg,hc⟩
    | some b => exact hg.free hc
  rw [trace_bind, run_perform, handle_kfree] at hkey
  rw [trace_bind, run_bind, run_perform, handle_kfree, trace_perform]
  obtain ⟨hlast,hlater⟩ := hp h (t.freed (r.map Buf.addr),fs) hnow.1 hnow.2 (fun x hx => hkey x (List.mem_append_right _ hx))
  refine ⟨hlast,fun x hx q hq => ?_⟩
  rcases List.mem_append.mp hx with hx | hx
  · rw [List.mem_singleton.mp hx] at hq
    cases hq
  · exact hlater x hx q hq

/-- A run that comes here is one that is not spoken of. -/
theorem freeKey (hkey : key ≠ none) (f : Unit → KProg β) : Accounts P key cells (kcall (.kfree key) >>= f) := by
  intro h s hg hc hspares
  rw [trace_bind, trace_perform] at hspares
  exact absurd (hspares (.kfree key,s) (by simp) rfl) hkey

theorem die : Accounts P key cells (die : KProg β) :=
  after (by simp [Call.Neutral]) (fun e => e.elim)

end Accounts

/-! ## The helpers -/

namespace Accounts

/-- Transfers neither allocate nor release. -/
theorem transfers {p : KProg β} (hp : Obeys Call.Neutral (fun _ _ => True) p) :
    Accounts P key [] p := by
  intro h s hg hc hkey
  have hI : ∀ (c : Call) (s : Kernel), c.Neutral → h.Grows s.1.heap → h.Grows (Kernel.handle P c s).2.1.heap :=
    fun c s hc hg => hg.trans (handle_grows P c s hc.1)
  refine ⟨Meets.run_preserves (I := fun s : Kernel => h.Grows s.1.heap) (fun _ _ _ _ _ _ => trivial) hI hp hg,fun x hx q hq => ?_⟩
  obtain ⟨hneutral,-⟩ := Meets.trace_spec (I := fun s : Kernel => h.Grows s.1.heap) (fun _ _ _ _ _ _ => trivial) hI hp hg hx
  exact absurd hq (hneutral.2 q)

theorem neutral_contract : TransferContract Call.Neutral (fun _ _ => True) where
  transfer c hc := by
    refine ⟨fun q hq => ?_,fun q hq => ?_⟩
    · rw [hq] at hc
      exact hc
    · rw [hq] at hc
      exact hc
  raise := by simp [Call.Neutral]
  restore := by simp [Call.Neutral]

theorem fileReadInto (f : File) (buff : Option Buf) (offset len : ℤ) : Accounts P key [] (fileReadInto f buff offset len) :=
  transfers (neutral_contract.fileReadInto f buff offset len)

theorem fileWriteFrom (f : File) (offset : ℤ) (contents : Option (List Byte)) (len : ℤ) :
    Accounts P key [] (fileWriteFrom f offset contents len) := transfers (neutral_contract.fileWriteFrom f offset contents len)

theorem vfsWriteFrom (f : File) (pos : ℤ) (contents : Option (List Byte)) (len : ℤ) :
    Accounts P key [] (vfsWriteFrom f pos contents len) := transfers (neutral_contract.vfsWriteFrom f pos contents len)

theorem fileOpen (path : Path) (create : Bool) : Accounts P key [] (fileOpen path create) :=
  after (by simp [Call.Neutral]) (fun _ => after (by simp [Call.Neutral]) (fun _ => call (by simp [Call.Neutral])))

theorem fileClose (f : File) : Accounts P key [] (fileClose f) := call (by simp [Call.Neutral])

theorem storeOutput (buff : Option Buf) (out : List Byte) : Accounts P key [] (storeOutput buff out) := by
  cases buff with
  | some b => exact pure _
  | none =>
    rw [XClone.storeOutput]
    split
    · exact pure _
    · exact die

theorem dPath (f : File) (size : Option ℕ) : Accounts P key [] (dPath P f size) := by
  unfold XClone.dPath
  split
  · exact pure _
  · split
    · exact pure _
    · exact die

/-- Path buffers are never released. -/
theorem pathBuffers (n : ℕ) : Accounts P key [] (pathBuffers n) := by
  induction n with
  | zero => exact pure _
  | succ n ih =>
    refine after (by simp [Call.Neutral]) (fun r => ?_)
    cases r with
    | none => exact pure _
    | some b => exact ih

theorem freePages (b₃ b₄ : Option Buf) :
    Accounts P key ((b₃.map Buf.addr).toList ++ (b₄.map Buf.addr).toList) (freePages b₃ b₄) := by
  have hlast : Accounts P key (b₄.map Buf.addr).toList (kcall (.kfree (b₄.map Buf.addr)) >>= fun _ => (Pure.pure () : KProg Unit)) := by
    have hend : Accounts P key [] (Pure.pure () : KProg Unit) := pure ()
    simpa using free b₄ hend
  rw [XClone.freePages]
  exact free b₃ hlast

/-! ## Rounds and loops -/

theorem compressBuffer (buf : List Byte) (len : ℤ) (outBuf : Option Buf) (outLen : Option ℤ) :
    Accounts P key [] (compressBuffer buf len outBuf outLen) := by
  refine after (by simp [Call.Neutral]) (fun tfm => ?_)
  split
  · exact die
  · refine after (by simp [Call.Neutral]) (fun r => ?_)
    by_cases hr : r.1 < 0
    · simp only [if_pos hr]
      exact pure _
    · simp only [if_neg hr]
      exact seq (storeOutput _ _) (fun _ => pure _)

theorem compressRound (fRead fWrite : File) (b₃ b₄ : Option Buf) (outLen : Option ℤ) (tei : List Byte) (tempSize pos wpos : ℤ) :
    Accounts P key ((b₃.map Buf.addr).toList ++ (b₄.map Buf.addr).toList)
      (compressRound fRead fWrite b₃ b₄ outLen tei tempSize pos wpos) := by
  refine bind (fileReadInto _ _ _ _) (fun r => bind (compressBuffer _ _ _ _) (fun x => ?_))
  by_cases hx : x.1 < 0
  · simp only [if_pos hx]
    exact seq (freePages b₃ b₄) (fun _ => pure _)
  · simp only [if_neg hx]
    exact after (by simp [Call.Neutral]) (fun _ => after (by simp [Call.Neutral]) (fun _ => after (by simp [Call.Neutral]) (fun _ =>
      bind (vfsWriteFrom _ _ _ _) (fun _ => after (by simp [Call.Neutral]) (fun _ => seq (freePages b₃ b₄) (fun _ => pure _))))))

theorem compressLoop (fRead fWrite : File) (outLen : Option ℤ) (rounds : ℕ) (err : ℤ) (tei : List Byte) (fsize pos wpos : ℤ) :
    Accounts P key [] (compressLoop fRead fWrite outLen rounds err tei fsize pos wpos) := by
  induction rounds generalizing err tei fsize pos wpos with
  | zero => exact pure _
  | succ rounds ih =>
    rw [XClone.compressLoop]
    split
    · refine alloc (fun b₃ => alloc (fun b₄ => seq (compressRound _ _ b₃ b₄ _ _ _ _ _) (fun r => ?_)))
      cases r with
      | error e => exact pure _
      | ok r => exact ih _ _ _ _ _
    · exact pure _

/-- The room for the length of the output is never released. -/
theorem compressFileXclone (fRead fWrite : File) : Accounts P key [] (compressFileXclone fRead fWrite) :=
  after (by simp [Call.Neutral]) (fun _ => after (by simp [Call.Neutral]) (fun _ => after (by simp [Call.Neutral]) (fun _ =>
    compressLoop _ _ _ _ _ _ _ _ _)))

theorem cloneEncryption (keyBytes : List Byte) (dst : Option Buf) (src : List Byte) (srcLen : ℕ) :
    Accounts P key [] (cloneEncryption keyBytes dst src srcLen) := by
  refine after (by simp [Call.Neutral]) (fun tfm => ?_)
  split
  · exact pure _
  · exact after (by simp [Call.Neutral]) (fun _ => after (by simp [Call.Neutral]) (fun _ => seq (storeOutput _ _) (fun _ => pure _)))

theorem encryptRound (fRead fWrite : File) (b₃ b₄ : Option Buf) (tempSize pos wpos : ℤ) :
    Accounts P key ((b₃.map Buf.addr).toList ++ (b₄.map Buf.addr).toList)
      (encryptRound fRead fWrite key b₃ b₄ tempSize pos wpos) := by
  refine bind (fileReadInto _ _ _ _) (fun r => read (fun _ bytes => bind (cloneEncryption _ _ _ _) (fun x => ?_)))
  by_cases hx : x.1 < 0
  · simp only [if_pos hx]
    exact seq (freePages b₃ b₄) (fun _ => pure _)
  · simp only [if_neg hx]
    exact bind (fileWriteFrom _ _ _ _) (fun _ => seq (freePages b₃ b₄) (fun _ => pure _))

theorem encryptLoop (hkey : key ≠ none) (fRead fWrite : File) (rounds : ℕ) (fsize pos wpos : ℤ) :
    Accounts P key [] (encryptLoop fRead fWrite key rounds fsize pos wpos) := by
  induction rounds generalizing fsize pos wpos with
  | zero => exact pure _
  | succ rounds ih =>
    rw [XClone.encryptLoop]
    split
    · refine alloc (fun b₃ => alloc (fun b₄ => seq (encryptRound _ _ b₃ b₄ _ _ _) (fun r => ?_)))
      cases r with
      | error e => exact freeKey hkey _
      | ok r => exact ih _ _ _
    · exact pure _

/-- The name buffer is the last cell to be released before the key. -/
theorem encrypted (hkey : key ≠ none) (fRead fWrite : File) (b : Buf) (fsize : ℤ) :
    Accounts P key [b.addr] (encryptFile fRead fWrite key fsize >>= fun r => match r with
      | some err => return err
      | none => do
        XClone.fileClose fRead
        let err ← kcall (.vfsUnlink fRead)
        XClone.fileClose fWrite
        kcall (.kfree (some b.addr))
        kcall (.kfree key)
        return err) := by
  refine bind (encryptLoop hkey _ _ _ _ _ _) (fun r => ?_)
  cases r with
  | some err => exact pure _
  | none =>
    exact bind (fileClose _) (fun _ => after (by simp [Call.Neutral]) (fun _ => bind (fileClose _) (fun _ =>
      free (some b) (freeKey hkey _))))

theorem encryptAndUnlink (fRead fWrite : File) (b : Buf) (fsize : ℤ) :
    Accounts P key [b.addr] (encryptAndUnlink fRead fWrite key b fsize) :=
  read (fun hkey _ => after (by simp [Call.Neutral]) (fun _ => after (by simp [Call.Neutral]) (fun _ => encrypted hkey _ _ b _)))

theorem encryptTemp (b : Buf) (name : Path) : Accounts P key [b.addr] (encryptTemp b name key) := by
  refine bind (fileOpen _ _) (fun r => ?_)
  cases r with
  | error e => exact pure _
  | ok fRead =>
    refine bind (fileOpen _ _) (fun r => after (by simp [Call.Neutral]) (fun _ => read (fun hkey _ => after (by simp [Call.Neutral]) (fun _ => ?_))))
    cases r with
    | error e => exact die
    | ok fWrite => exact after (by simp [Call.Neutral]) (fun _ => encrypted hkey _ _ b _)

/-! ## The two operations -/

theorem processencryption (fname : Path) : Accounts P key [] (processencryption P fname key) := by
  refine bind (fileOpen _ _) (fun r => ?_)
  cases r with
  | error e => exact pure _
  | ok fRead =>
    refine bind (pathBuffers _) (fun granted => ?_)
    cases granted with
    | false => exact pure _
    | true =>
      refine after (by simp [Call.Neutral]) (fun _ => alloc (fun b => ?_))
      cases b with
      | none => exact die
      | some b =>
        refine bind (dPath _ _) (fun _ => after (by simp [Call.Neutral]) (fun _ => bind (fileOpen _ _) (fun r => ?_)))
        cases r with
        | error e => exact pure _
        | ok fWrite => exact encryptAndUnlink _ _ b _

theorem processEncComp (fname : Path) : Accounts P key [] (processEncComp P fname key) := by
  refine bind (pathBuffers _) (fun granted => ?_)
  cases granted with
  | false => exact pure _
  | true =>
    refine after (by simp [Call.Neutral]) (fun _ => alloc (fun b => ?_))
    cases b with
    | none => exact die
    | some b =>
      refine bind (fileOpen _ _) (fun r => ?_)
      cases r with
      | error e => exact pure _
      | ok fRead =>
        refine bind (dPath _ _) (fun _ => bind (fileOpen _ _) (fun r => ?_))
        cases r with
        | error e => exact pure _
        | ok fTemp =>
          exact bind (compressFileXclone _ _) (fun _ => bind (fileClose _) (fun _ => after (by simp [Call.Neutral]) (fun _ =>
            bind (fileClose _) (fun _ => encryptTemp b _))))

end Accounts

end Rules

/-! ## What a release leaves -/

section Released
variable {a : ℕ}

/-- A cell that was given up is not given out again. -/
theorem handle_dead (P : Platform) (c : Call) (s : Kernel) (ha : a < s.1.heap.next) (hdead : s.1.heap.live a = none) :
    (Kernel.handle P c s).2.1.heap.live a = none := by
  obtain ⟨t,fs⟩ := s
  cases c with
  | kfree q =>
    rcases q with _ | b
    · exact hdead
    · rw [handle_kfree, Task.freed_heap, Heap.free]
      split
      · simp only [Heap.drop, Function.update_apply]
        split
        · rfl
        · exact hdead
      · exact hdead
  | kmalloc size =>
    simp only [Kernel.handle, Task.kmalloc]
    split
    · exact hdead
    · exact (Function.update_of_ne ha.ne _ _).trans hdead
  | _ =>
    simp only [Kernel.handle]
    repeat' split
    all_goals exact hdead

theorem handle_kfree_dead (P : Platform) (s : Kernel) : (Kernel.handle P (.kfree (some a)) s).2.1.heap.live a = none := by
  obtain ⟨t,fs⟩ := s
  rw [handle_kfree, Task.freed_heap, Heap.free]
  split
  case isTrue => exact Function.update_self _ _ _
  case isFalse hnone => simpa using hnone

variable {α : Type} (P : Platform) (p : KProg α) {s : Kernel}

theorem run_dead (ha : a < s.1.heap.next) (hdead : s.1.heap.live a = none) :
    (p.run (Kernel.handle P) s).2.1.heap.live a = none := by
  induction p generalizing s with
  | ret r => exact hdead
  | call c k ih =>
    have hnow := handle_dead P c s ha hdead
    have hnext := handle_next P c s
    simp only [Prog.run]
    rcases hh : Kernel.handle P c s with ⟨_ | r,s'⟩
    · rw [hh] at hnow
      exact hnow
    · rw [hh] at hnow hnext
      exact ih r (ha.trans_le hnext) hnow

/-- What was released on the way is not there at the end. -/
theorem released_dead (ha : a < s.1.heap.next) {x : Call × Kernel} (hx : x ∈ p.trace (Kernel.handle P) s)
    (hfree : x.1 = .kfree (some a)) : (p.run (Kernel.handle P) s).2.1.heap.live a = none := by
  induction p generalizing s with
  | ret r => cases hx
  | call c k ih =>
    have hnext := handle_next P c s
    simp only [Prog.trace] at hx
    simp only [Prog.run]
    rcases hh : Kernel.handle P c s with ⟨_ | r,s'⟩
    · rw [hh] at hx
      obtain rfl := List.mem_singleton.mp hx
      obtain rfl : c = .kfree (some a) := hfree
      have hgone := handle_kfree_dead (a := a) P s
      rw [hh] at hgone
      exact hgone
    · rw [hh] at hx hnext
      rcases List.mem_cons.mp hx with rfl | hx
      · obtain rfl : c = .kfree (some a) := hfree
        have hgone := handle_kfree_dead (a := a) P s
        rw [hh] at hgone
        exact run_dead P (k r) (ha.trans_le hnext) hgone
      · exact ih r (ha.trans_le hnext) hx

end Released

/-! ## Runs -/

namespace Action

/-- The kernel calls of an action, each with the state that it is made in. -/
def calls (P : Platform) (fuel : ℕ) : Action → Machine → List (Call × Kernel)
  | request op fname b1 around, m =>
    let q := m.request op fname b1 around
    (q.program P fuel).trace (Kernel.handle P) (q.task,m.fs)
  | _, _ => []

/-- A write to the entry of the key, a request that encrypts, or a file of the user's. -/
def Keyed : Action → Prop
  | request op _ _ _ => op.encrypts = true
  | _ => True

/-- What a write makes the key, when it succeeds. -/
def payload : Action → Option (List Byte)
  | writeKey fails buffer => if fails.kzalloc || fails.copyFromUser then none else some buffer
  | _ => none

/-- Every string that is read lies in a live buffer. -/
def UsesLive (P : Platform) (fuel : ℕ) (a : Action) (m : Machine) : Prop :=
  ∀ x ∈ a.calls P fuel m, ∀ q, x.1 = .readString q → q.bind x.2.1.heap.live ≠ none

/-- The action comes neither to a release of the key nor to a use of a key that is `NULL`. -/
def SparesKey (P : Platform) (fuel : ℕ) (a : Action) (m : Machine) : Prop :=
  ∀ x ∈ a.calls P fuel m, (x.1 = .kfree m.encKey → m.encKey = none) ∧ x.1 ≠ .readString none

instance (P : Platform) (fuel : ℕ) (a : Action) (m : Machine) : Decidable (a.SparesKey P fuel m) :=
  inferInstanceAs (Decidable (∀ x ∈ a.calls P fuel m, (x.1 = .kfree m.encKey → m.encKey = none) ∧ x.1 ≠ .readString none))

end Action

/-- The payload of the last write that succeeded. -/
def lastKey (w : List Action) : Option (List Byte) := (w.filterMap Action.payload).getLast?

/-- The key is `NULL`, or a live buffer with this payload. -/
def Machine.HoldsKey (m : Machine) (last : Option (List Byte)) : Prop :=
  ∀ a, m.encKey = some a → ∃ payload, last = some payload ∧ m.heap.live a = some (payload ++ [0])

section Ownership
variable (P : Platform) (fuel : ℕ)

/-- In every state of the run the key is `NULL` or a live buffer with the last payload and nothing was freed twice, and no
request uses a key that is `NULL` or was freed. -/
structure KeyOwned (w : List Action) (m : Machine) : Prop where
  holds : ∀ w₁, w₁ <+: w → (runActions P fuel w₁ m).HoldsKey (lastKey w₁)
  once : ∀ w₁, w₁ <+: w → (runActions P fuel w₁ m).heap.doubleFree = false
  uses : ∀ w₁ a, w₁ ++ [a] <+: w → a.UsesLive P fuel (runActions P fuel w₁ m)

/-- Every action of the run spares the key it finds. -/
def SparesRun : List Action → Machine → Prop
  | [], _ => True
  | a :: w, m => a.SparesKey P fuel m ∧ SparesRun w (a.step P fuel m)

variable {P fuel} {w : List Action} {a : Action} {m : Machine} {last : Option (List Byte)}

theorem runActions_append : runActions P fuel (w ++ [a]) m = a.step P fuel (runActions P fuel w m) := by
  simp [runActions]

theorem lastKey_append : lastKey (w ++ [a]) = a.payload.or (lastKey w) := by
  unfold lastKey
  rw [List.filterMap_append, List.getLast?_append]
  cases ha : a.payload <;> simp [ha]

theorem sparesRun_append : SparesRun P fuel (w ++ [a]) m ↔ SparesRun P fuel w m ∧ a.SparesKey P fuel (runActions P fuel w m) := by
  induction w generalizing m with
  | nil => exact and_comm
  | cons b w ih => exact (and_congr_right (fun _ => ih)).trans and_assoc.symm

theorem keyOwned_append : KeyOwned P fuel (w ++ [a]) m ↔ KeyOwned P fuel w m ∧
    (a.UsesLive P fuel (runActions P fuel w m) ∧ (runActions P fuel (w ++ [a]) m).HoldsKey (lastKey (w ++ [a])) ∧
      (runActions P fuel (w ++ [a]) m).heap.doubleFree = false) := by
  constructor
  · intro h
    refine ⟨⟨?_,?_,?_⟩,h.uses w a (List.prefix_refl _),h.holds _ (List.prefix_refl _),h.once _ (List.prefix_refl _)⟩
    · intro w₁ hw
      exact h.holds w₁ (hw.trans (List.prefix_append w [a]))
    · intro w₁ hw
      exact h.once w₁ (hw.trans (List.prefix_append w [a]))
    · intro w₁ b hw
      exact h.uses w₁ b (hw.trans (List.prefix_append w [a]))
  · rintro ⟨h,huses,hholds,honce⟩
    refine ⟨?_,?_,?_⟩
    · intro w₁ hw
      rcases List.prefix_concat_iff.mp hw with rfl | hw
      · exact hholds
      · exact h.holds w₁ hw
    · intro w₁ hw
      rcases List.prefix_concat_iff.mp hw with rfl | hw
      · exact honce
      · exact h.once w₁ hw
    · intro w₁ b hw
      rcases List.prefix_concat_iff.mp hw with heq | hw
      · obtain ⟨rfl,hb⟩ := List.append_inj' heq rfl
        obtain rfl := List.singleton_inj.mp hb
        exact huses
      · exact h.uses w₁ b hw

/-- A request that encrypts accounts for its cells up to the release of the key. -/
theorem accounts_request {op : Operation} (hop : op.encrypts = true) (fname : Path) (b1 : BitVec 32) (around : Surroundings) :
    Accounts P m.encKey [] ((m.request op fname b1 around).program P fuel) := by
  cases op with
  | move => cases hop
  | compress => cases hop
  | encrypt =>
    rw [Request.program, Machine.request, Operation.word, syscall_encrypt]
    exact (Accounts.processencryption fname).seq (fun _ => Accounts.pure _)
  | encComp =>
    rw [Request.program, Machine.request, Operation.word, syscall_encComp]
    exact (Accounts.processEncComp fname).seq (fun _ => Accounts.pure _)

/-! ## A step that spares the key -/

theorem Heap.alloc_grows (h : Heap) (bytes : List Byte) : h.Grows (h.alloc bytes) where
  live _ _ ha := (Function.update_of_ne (Heap.lt_next ha).ne _ _).trans ha
  doubleFree := rfl

/-- A write leaves the key a live buffer, with its own payload or with the one before. -/
theorem writeKey_holds (fails : EncKey.Faults) (buffer : List Byte) (hholds : m.HoldsKey last) (honce : m.heap.doubleFree = false) :
    ((Action.writeKey fails buffer).step P fuel m).HoldsKey ((Action.writeKey fails buffer).payload.or last) ∧
      ((Action.writeKey fails buffer).step P fuel m).heap.doubleFree = false := by
  obtain ⟨kzalloc,copyFromUser⟩ := fails
  cases kzalloc with
  | true => exact ⟨hholds,honce⟩
  | false =>
    cases copyFromUser with
    | true =>
      have hgained : m.heap.Gained (m.heap.alloc (List.replicate (buffer.length + 1) 0)) [m.heap.next] :=
        ⟨by simp [m.heap.fresh],by simp [Heap.alloc],List.nodup_singleton _⟩
      have hgrows := (m.heap.alloc_grows _).free hgained
      refine ⟨fun a ha => ?_,hgrows.1.doubleFree.trans honce⟩
      obtain ⟨payload,hlast,hlive⟩ := hholds a ha
      exact ⟨payload,hlast,hgrows.1.live a _ hlive⟩
    | false =>
      have hnew : (m.heap.alloc (buffer ++ [0])).live m.heap.next = some (buffer ++ [0]) := Function.update_self _ _ _
      rcases hkey : m.encKey with _ | old
      · refine ⟨?_,?_⟩
        · rintro a ⟨rfl⟩
          refine ⟨buffer,rfl,?_⟩
          simpa [Action.step, EncKey.myProcWrite, hkey, Heap.free] using hnew
        · simpa [Action.step, EncKey.myProcWrite, hkey, Heap.free, Heap.alloc] using honce
      · obtain ⟨payload,-,hlive⟩ := hholds old hkey
        have hne : m.heap.next ≠ old := (Heap.lt_next hlive).ne'
        have hthere : (m.heap.alloc (buffer ++ [0])).live old = some (payload ++ [0]) := (m.heap.alloc_grows _).live old _ hlive
        refine ⟨?_,?_⟩
        · rintro a ⟨rfl⟩
          refine ⟨buffer,rfl,?_⟩
          simpa [Action.step, EncKey.myProcWrite, hkey, Heap.free_live_of_ne _ hne] using hnew
        · have hsome : ((m.heap.alloc (buffer ++ [0])).live old).isSome = true := by simp [hthere]
          have hheap : ((Action.writeKey ⟨false,false⟩ buffer).step P fuel m).heap =
              (m.heap.alloc (buffer ++ [0])).free (some old) := by
            simp [Action.step, EncKey.myProcWrite, hkey]
          rw [hheap, Heap.free, if_pos hsome]
          exact honce

/-- An action keeps the key owned if and only if it spares it. -/
theorem action_owned_iff (ha : a.Keyed) (hholds : m.HoldsKey last) (honce : m.heap.doubleFree = false) :
    (a.UsesLive P fuel m ∧ (a.step P fuel m).HoldsKey (a.payload.or last) ∧ (a.step P fuel m).heap.doubleFree = false) ↔
      a.SparesKey P fuel m := by
  cases a with
  | writeKey fails buffer =>
    refine iff_of_true ⟨?_,writeKey_holds fails buffer hholds honce⟩ ?_
    · intro x hx
      cases hx
    · intro x hx
      cases hx
  | create path content =>
    refine iff_of_true ⟨?_,hholds,honce⟩ ?_
    · intro x hx
      cases hx
    · intro x hx
      cases hx
  | request op fname b1 around =>
    obtain ⟨q,hq⟩ : ∃ q, m.request op fname b1 around = q := ⟨_,rfl⟩
    have haccounts : Accounts P m.encKey [] ((m.request op fname b1 around).program P fuel) := accounts_request ha fname b1 around
    rw [hq] at haccounts
    have hheap : q.task.heap = m.heap := by rw [← hq]; rfl
    have hcalls : (Action.request op fname b1 around).calls P fuel m = (q.program P fuel).trace (Kernel.handle P) (q.task,m.fs) := by
      rw [← hq]; rfl
    have hstep : ((Action.request op fname b1 around).step P fuel m).heap =
        ((q.program P fuel).run (Kernel.handle P) (q.task,m.fs)).2.1.heap := by
      rw [← hq]; rfl
    have hsame : ((Action.request op fname b1 around).step P fuel m).encKey = m.encKey := rfl
    unfold Action.UsesLive Action.SparesKey
    rw [hcalls, hstep]
    constructor
    · rintro ⟨huses,hafter,-⟩ x hx
      refine ⟨fun hfree => ?_,fun hread => ?_⟩
      · by_contra hsome
        obtain ⟨b,hb⟩ := Option.ne_none_iff_exists'.mp hsome
        obtain ⟨payload,-,hlive⟩ := hholds b hb
        have hdead := released_dead P (q.program P fuel) (s := (q.task,m.fs)) (hheap ▸ Heap.lt_next hlive) hx (hfree.trans (by rw [hb]))
        obtain ⟨payload',-,hlive'⟩ := hafter b (hsame.trans hb)
        rw [hstep, hdead] at hlive'
        cases hlive'
      · exact huses x hx none hread rfl
    · intro hspares
      obtain ⟨hgrows,hreads⟩ := haccounts m.heap (q.task,m.fs) (hheap ▸ Heap.Grows.refl _) (Heap.Gained.nil _ _)
        (fun x hx => (hspares x hx).1)
      refine ⟨fun x hx p hp => ?_,fun b hb => ?_,hgrows.doubleFree.trans honce⟩
      · obtain ⟨rfl,hthen⟩ := hreads x hx p hp
        have hsome : m.encKey ≠ none := fun hnone => (hspares x hx).2 (hp.trans (by rw [hnone]))
        obtain ⟨b,hb⟩ := Option.ne_none_iff_exists'.mp hsome
        obtain ⟨payload,-,hlive⟩ := hholds b hb
        rw [hb, Option.bind_some, hthen.live b _ hlive]
        exact Option.some_ne_none _
      · obtain ⟨payload,hlast,hlive⟩ := hholds b (hsame.symm.trans hb)
        exact ⟨payload,hlast,(congrArg (fun h : Heap => h.live b) hstep).trans (hgrows.live b _ hlive)⟩

end Ownership

/-- Over every sequence of writes to the key and of requests that encrypt, the key is owned if and only if no request comes to a
release of it, nor to a use of it while it is `NULL`. -/
theorem key_owned_iff (P : Platform) (fuel : ℕ) (w : List Action) (m : Machine) (hw : ∀ a ∈ w, a.Keyed) (hkey : m.encKey = none)
    (honce : m.heap.doubleFree = false) : KeyOwned P fuel w m ↔ SparesRun P fuel w m := by
  induction w using List.reverseRecOn with
  | nil =>
    refine iff_of_true ⟨?_,?_,?_⟩ trivial
    · intro w₁ hw₁ a ha
      rw [List.prefix_nil.mp hw₁] at ha
      exact absurd (hkey.symm.trans ha) (Option.some_ne_none a).symm
    · intro w₁ hw₁
      rw [List.prefix_nil.mp hw₁]
      exact honce
    · intro w₁ a hw₁
      simp at hw₁
  | append_singleton w a ih =>
    rw [keyOwned_append, sparesRun_append, ← ih (fun b hb => hw b (by simp [hb]))]
    refine and_congr_right (fun hbefore => ?_)
    rw [runActions_append, lastKey_append]
    exact action_owned_iff (hw a (by simp)) (hbefore.holds w (List.prefix_refl w)) (hbefore.once w (List.prefix_refl w))

/-- Keys are set and set again while no encryption gets as far as the key: one does not find its file, one finds no memory for its
name, one cannot open `temp.txt`. -/
def sparingRun : List Action :=
  [.request .encrypt ['/','b'] 4085 atRoot,.writeKey {} [107],.request .encrypt ['/','a'] 4085 ⟨['/'],0,[],[],{ allocs := [false,true] }⟩,
    .writeKey { copyFromUser := true } [108],.request .encComp ['/','a'] 4087 ⟨['/'],0,[],[],{ opens := [none,some 12] }⟩,
    .writeKey {} [109,110]]

theorem key_owned_sparing : KeyOwned .bare 1 sparingRun fresh ∧ SparesRun .bare 1 sparingRun fresh := by
  have hspares : SparesRun .bare 1 sparingRun fresh :=
    ⟨by decide +kernel,by decide +kernel,by decide +kernel,by decide +kernel,by decide +kernel,by decide +kernel,trivial⟩
  have hkeyed : ∀ a ∈ sparingRun, a.Keyed := by
    intro a ha
    simp only [sparingRun, List.mem_cons, List.not_mem_nil, or_false] at ha
    rcases ha with rfl | rfl | rfl | rfl | rfl | rfl
    all_goals first | exact rfl | exact trivial
  exact ⟨(key_owned_iff .bare 1 sparingRun fresh hkeyed rfl rfl).mpr hspares,hspares⟩

/-- One encryption that does all it should leaves the key behind it released. -/
theorem key_not_owned : ¬ KeyOwned .bare 1 [.writeKey {} [107],.request .encrypt ['/','a'] 4085 atRoot] fresh := by
  intro h
  obtain ⟨payload,-,hlive⟩ := h.holds _ (List.prefix_refl _) 0 (by decide +kernel)
  have hdead : (runActions .bare 1 [.writeKey {} [107],.request .encrypt ['/','a'] 4085 atRoot] fresh).heap.live 0 = none := by
    decide +kernel
  rw [hdead] at hlive
  cases hlive

end XClone

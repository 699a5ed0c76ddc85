import XClone.Sync.Names
import XClone.Sync.RoundTrip

/-! # The proc entries `max_queue_len` and `max_file_num`

A write parses the string into a variable on the stack and stores that variable, whether the
string was a number or not; a read prints the stored value.
-/
namespace XClone

inductive LimitEntry where
  | maxQueueLen
  | maxFileNum
deriving DecidableEq, Repr

/-- The two tunables of `vars.h`. -/
structure Limits where
  queueLen : ℤ
  numFiles : ℤ
deriving DecidableEq, Repr

/-- A write to an entry, and what the stack holds where `temp_val` will be. -/
structure LimitWrite where
  entry : LimitEntry
  buffer : List Byte
  tempVal : BitVec 32

/-- `kstrtoint_from_user` in base ten: the error code, and what it leaves in `res`. -/
def kstrtointFromUser (buffer : List Byte) (res : ℤ) : ℤ × ℤ :=
  match parseInt buffer with
  | some value => (0,value)
  | none => (einval,res)

/-- `my_proc_write` of either module: what it returns and what it stores. The error code is printed only. -/
def myProcWrite (buffer : List Byte) (tempVal : BitVec 32) : ℤ × ℤ :=
  let (_val,tempVal) := kstrtointFromUser buffer tempVal.toInt
  (buffer.length,tempVal)

/-- `my_proc_show` of either module. -/
def myProcShow (value : ℤ) : List Byte := asciiBytes (decimal value ++ ['\n'])

def Limits.value (s : Limits) : LimitEntry → ℤ
  | .maxQueueLen => s.queueLen
  | .maxFileNum => s.numFiles

/-- A write to one of the entries. -/
def Limits.write (s : Limits) (w : LimitWrite) : ℤ × Limits :=
  let (count,value) := myProcWrite w.buffer w.tempVal
  match w.entry with
  | .maxQueueLen => (count,{s with queueLen := value})
  | .maxFileNum => (count,{s with numFiles := value})

def Limits.initial : Limits := ⟨0,0⟩

/-- The tunables after a sequence of writes. -/
def Limits.after (ws : List LimitWrite) : Limits := ws.foldl (fun s w => (s.write w).2) Limits.initial

/-! ## What is asked of the entries -/

/-- The value of the last accepted string of an entry. -/
def lastAccepted (entry : LimitEntry) (ws : List LimitWrite) : ℤ :=
  ws.foldl (fun v w => if w.entry = entry then (parseInt w.buffer).getD v else v) 0

/-- What a write should do after the writes `past`. -/
structure WriteObeyed (past : List LimitWrite) (w : LimitWrite) : Prop where
  last : ∀ entry, ((Limits.after past).write w).2.value entry = lastAccepted entry (past ++ [w])
  rejected : parseInt w.buffer = none →
    ((Limits.after past).write w).2 = Limits.after past ∧ ((Limits.after past).write w).1 < 0
  shown : ∀ entry tempVal, (((Limits.after past).write w).2.write
    ⟨entry,myProcShow (((Limits.after past).write w).2.value entry),tempVal⟩).2 = ((Limits.after past).write w).2

/-! ## Printing and parsing -/

theorem parseInt_bounds {str : List Byte} {v : ℤ} (h : parseInt str = some v) : -2147483648 ≤ v ∧ v < 2147483648 := by
  obtain ⟨digits,hdigits⟩ : ∃ digits, (if (splitSign str).2.getLast? = some 10 then (splitSign str).2.dropLast
    else (splitSign str).2) = digits := ⟨_,rfl⟩
  obtain ⟨value,hvalue⟩ : ∃ value : ℤ, (if (splitSign str).1 = true then -(digitsValue digits : ℤ)
    else digitsValue digits) = value := ⟨_,rfl⟩
  simp only [parseInt, hdigits, hvalue] at h
  split at h
  · split at h
    · next hrange =>
      cases h
      exact hrange
    · cases h
  · cases h

theorem getLast?_append_newline (ds : List Byte) : (ds ++ [10]).getLast? = some 10 := by simp

/-- A number with its sign and a newline. -/
theorem parseInt_line {ds : List Byte} (hne : ds ≠ []) (hd : ∀ b ∈ ds, IsDigit b) (negative : Bool) {v : ℤ}
    (hv : v = if negative then -(digitsValue ds : ℤ) else digitsValue ds) (hlow : -2147483648 ≤ v) (hhigh : v < 2147483648) :
    parseInt ((if negative then [45] else []) ++ ds ++ [10]) = some v := by
  have hsign : splitSign ((if negative then [45] else []) ++ ds ++ [10]) = (negative,ds ++ [10]) := by
    cases negative with
    | true => rfl
    | false =>
      obtain ⟨b,bs,rfl⟩ := List.exists_cons_of_ne_nil hne
      have hb := hd b List.mem_cons_self
      have hminus : b ≠ 45 := by
        rintro rfl
        exact absurd hb (by decide)
      have hplus : b ≠ 43 := by
        rintro rfl
        exact absurd hb (by decide)
      simp [splitSign, hminus, hplus]
  simp only [parseInt, hsign, getLast?_append_newline, ↓reduceIte, List.dropLast_concat]
  rw [if_pos ⟨hne,hd⟩, ← hv, if_pos ⟨hlow,hhigh⟩]

/-- The printed value is accepted and read back. -/
theorem parseInt_myProcShow {v : ℤ} (hlow : -2147483648 ≤ v) (hhigh : v < 2147483648) :
    parseInt (myProcShow v) = some v := by
  have hdigits : ∀ n, ∀ b ∈ asciiBytes (Nat.toDigits 10 n), IsDigit b := fun n =>
    isDigit_asciiBytes (fun c hc => Nat.isDigit_of_mem_toDigits (by omega) (by omega) hc)
  have hvalue : ∀ n, digitsValue (asciiBytes (Nat.toDigits 10 n)) = n := fun n => by
    rw [digitsValue_asciiBytes (fun c hc => Nat.isDigit_of_mem_toDigits (by omega) (by omega) hc),
      Nat.ofDigitChars_ten_toDigits]
  have hne : ∀ n, asciiBytes (Nat.toDigits 10 n) ≠ [] := fun n hnil =>
    Nat.toDigits_ne_nil (List.map_eq_nil_iff.mp hnil)
  have hline : ∀ ds, asciiBytes (ds ++ ['\n']) = asciiBytes ds ++ [10] := fun ds => by
    simp only [asciiBytes, List.map_append]
    rfl
  rw [myProcShow, hline]
  cases v with
  | ofNat n =>
    have h := parseInt_line (hne n) (hdigits n) false (v := n) (by simp [hvalue]) hlow hhigh
    simpa [decimal_natCast] using h
  | negSucc n =>
    have h := parseInt_line (hne (n+1)) (hdigits (n+1)) true (v := Int.negSucc n) (by simp [hvalue, Int.negSucc_eq])
      hlow hhigh
    rw [decimal_negSucc]
    exact h

/-! ## Runs of accepted writes -/

theorem write_accepted (s : Limits) {w : LimitWrite} {v : ℤ} (h : parseInt w.buffer = some v) (entry : LimitEntry) :
    (s.write w).2.value entry = if w.entry = entry then v else s.value entry := by
  obtain ⟨target,buffer,tempVal⟩ := w
  cases target <;> cases entry <;> simp_all [Limits.write, Limits.value, myProcWrite, kstrtointFromUser]

theorem write_fst (s : Limits) (w : LimitWrite) : (s.write w).1 = w.buffer.length := by
  obtain ⟨target,buffer,tempVal⟩ := w
  cases target <;> rfl

theorem Limits.ext_value {s s' : Limits} (h : ∀ entry, s.value entry = s'.value entry) : s = s' := by
  obtain ⟨q,n⟩ := s
  obtain ⟨q',n'⟩ := s'
  obtain rfl : q = q' := h .maxQueueLen
  obtain rfl : n = n' := h .maxFileNum
  rfl

theorem Limits.after_concat (ws : List LimitWrite) (w : LimitWrite) :
    Limits.after (ws ++ [w]) = ((Limits.after ws).write w).2 := by
  simp [Limits.after]

theorem lastAccepted_concat (entry : LimitEntry) (ws : List LimitWrite) (w : LimitWrite) :
    lastAccepted entry (ws ++ [w]) =
      if w.entry = entry then (parseInt w.buffer).getD (lastAccepted entry ws) else lastAccepted entry ws := by
  simp [lastAccepted]

/-- After accepted writes each entry holds its last value, which is an `int`. -/
theorem after_accepted (ws : List LimitWrite) (h : ∀ w ∈ ws, parseInt w.buffer ≠ none) (entry : LimitEntry) :
    (Limits.after ws).value entry = lastAccepted entry ws ∧ -2147483648 ≤ lastAccepted entry ws ∧
      lastAccepted entry ws < 2147483648 := by
  induction ws using List.reverseRecOn with
  | nil => cases entry <;> exact ⟨rfl,by decide,by decide⟩
  | append_singleton ws w ih =>
    obtain ⟨hvalue,hbounds⟩ := ih (fun x hx => h x (List.mem_append_left _ hx))
    obtain ⟨v,hv⟩ := Option.ne_none_iff_exists'.mp (h w (by simp))
    rw [Limits.after_concat, lastAccepted_concat, write_accepted _ hv, hv]
    split
    · exact ⟨rfl,parseInt_bounds hv⟩
    · exact ⟨hvalue,hbounds⟩

/-- Every write of a run does what is asked exactly when every string of the run is a number. -/
theorem limits_obeyed_iff (ws : List LimitWrite) :
    (∀ past w, past ++ [w] <+: ws → WriteObeyed past w) ↔ ∀ w ∈ ws, parseInt w.buffer ≠ none := by
  constructor
  · intro h w hw hnone
    obtain ⟨past,rest,rfl⟩ := List.append_of_mem hw
    obtain ⟨-,hneg⟩ := (h past w ⟨rest,by simp⟩).rejected hnone
    rw [write_fst] at hneg
    omega
  · intro h past w hpre
    have hall : ∀ x ∈ past ++ [w], parseInt x.buffer ≠ none := fun x hx => h x (hpre.subset hx)
    have hafter := after_accepted _ hall
    rw [Limits.after_concat] at hafter
    refine ⟨fun entry => (hafter entry).1,fun hnone => absurd hnone (hall w (by simp)),?_⟩
    intro entry tempVal
    obtain ⟨s,hs⟩ : ∃ s, ((Limits.after past).write w).2 = s := ⟨_,rfl⟩
    rw [hs] at hafter ⊢
    obtain ⟨hvalue,hlow,hhigh⟩ := hafter entry
    rw [← hvalue] at hlow hhigh
    have hread := write_accepted s (w := ⟨entry,myProcShow (s.value entry),tempVal⟩) (parseInt_myProcShow hlow hhigh)
    refine Limits.ext_value (fun entry' => ?_)
    rw [hread]
    by_cases heq : entry = entry'
    · simp [heq]
    · simp [heq]

/-- The text `abc` is no number, but a write of it stores what was on the stack and reports success. -/
theorem limits_store_stack :
    ¬ ∀ past w, past ++ [w] <+: [⟨.maxQueueLen,asciiBytes ['a','b','c'],7⟩] → WriteObeyed past w := by
  intro h
  have hrejected := (h [] ⟨.maxQueueLen,asciiBytes ['a','b','c'],7⟩ List.prefix_rfl).rejected (by decide)
  exact absurd hrejected.2 (by decide)

end XClone

import XClone.Sync.Encryption
import XClone.Library.Calendar
import XClone.Library.Digits

/-! # What the name of a trash entry says

The stamp ends at the first underscore and the directory at the last slash, so a name
splits into the leftover of its buffer, the stamp, and the mangled path with its suffix.
The hour is printed after a shift of four and without a borrow from the day.
-/
namespace XClone

/-! ## Printed numbers -/

theorem decimal_negSucc (n : ℕ) : decimal (Int.negSucc n) = '-' :: Nat.toDigits 10 (n+1) := by
  change ("-" ++ Nat.repr (n+1)).toList = _
  rw [String.toList_append, Nat.toList_repr]
  rfl

theorem mem_decimal {n : ℤ} {c : Char} (h : c ∈ decimal n) : c.isDigit ∨ c = '-' := by
  cases n with
  | ofNat n =>
    left
    change c ∈ decimal (n : ℤ) at h
    rw [decimal_natCast] at h
    exact Nat.isDigit_of_mem_toDigits (by omega) (by omega) h
  | negSucc n =>
    rw [decimal_negSucc] at h
    rcases List.mem_cons.mp h with h | h
    · exact .inr h
    · exact .inl (Nat.isDigit_of_mem_toDigits (by omega) (by omega) h)

theorem mem_decimal02 {n : ℤ} {c : Char} (h : c ∈ decimal02 n) : c.isDigit ∨ c = '-' := by
  unfold decimal02 at h
  split at h
  · rcases List.mem_cons.mp h with rfl | h
    · exact .inl (by decide)
    · exact mem_decimal h
  · exact mem_decimal h

/-- A field of two digits. -/
structure TwoDigits (n : ℕ) (ds : List Char) : Prop where
  length : ds.length = 2
  digits : ∀ c ∈ ds, c.isDigit
  value : Nat.ofDigitChars 10 ds 0 = n

theorem decimal02_natCast {n : ℕ} (h : n < 100) : TwoDigits n (decimal02 n) := by
  have hd : ∀ c ∈ Nat.toDigits 10 n, c.isDigit := fun c hc => Nat.isDigit_of_mem_toDigits (by omega) (by omega) hc
  by_cases hs : n < 10
  · have htext : decimal02 n = '0' :: Nat.toDigits 10 n := by
      rw [decimal02, if_pos (by omega), decimal_natCast]
    rw [htext]
    constructor
    · rw [Nat.toDigits_of_lt_base hs]
      rfl
    · intro c hc
      rcases List.mem_cons.mp hc with rfl | hc
      · decide
      · exact hd c hc
    · rw [Nat.ofDigitChars_cons]
      exact Nat.ofDigitChars_ten_toDigits
  · have htext : decimal02 n = Nat.toDigits 10 n := by
      rw [decimal02, if_neg (by omega), decimal_natCast]
    rw [htext]
    constructor
    · have htwo := (Nat.length_toDigits_le_iff (b := 10) (n := n) (k := 2) (by omega) (by omega)).mpr h
      have hone := (Nat.length_toDigits_le_iff (b := 10) (n := n) (k := 1) (by omega) (by omega)).not.mpr hs
      omega
    · exact hd
    · exact Nat.ofDigitChars_ten_toDigits

theorem TwoDigits.inj {m n : ℕ} {ds : List Char} (hm : TwoDigits m ds) (hn : TwoDigits n ds) : m = n :=
  hm.value.symm.trans hn.value

theorem TwoDigits.lt {m n : ℕ} {ds es : List Char} (hm : TwoDigits m ds) (hn : TwoDigits n es) (h : m < n) : ds < es :=
  Digits.lt_of_ofDigitChars_lt hm.digits hn.digits (hm.length.trans hn.length.symm) (n := 0)
    (by rw [hm.value, hn.value]; exact h)

/-! ## The order of two fields -/

/-- How `%02d` of a number of at most two digits sorts before a character greater than the
digits: signs first, and below a sign the greater number need not be the greater text. -/
def fieldRank (n : ℤ) : ℕ := if 0 ≤ n then 2000 + n.toNat else Digits.rank (-n).toNat

theorem decimal02_of_neg {n : ℤ} (h : n < 0) : decimal02 n = '-' :: Nat.toDigits 10 (-n).toNat := by
  have hneg : n = Int.negSucc ((-n).toNat-1) := by omega
  have hsucc : (-n).toNat-1+1 = (-n).toNat := by omega
  rw [decimal02, if_neg (by omega)]
  conv_lhs => rw [hneg, decimal_negSucc, hsucc]

theorem decimal02_of_nonneg {n : ℤ} (h : 0 ≤ n) (h' : n < 100) : TwoDigits n.toNat (decimal02 n) := by
  obtain ⟨k,rfl⟩ := Int.eq_ofNat_of_zero_le h
  exact decimal02_natCast (by omega)

theorem TwoDigits.dash_lt {n : ℕ} {ds : List Char} (h : TwoDigits n ds) (x y : List Char) : '-' :: x < ds ++ y := by
  cases ds with
  | nil => exact absurd h.length (by decide)
  | cons c ds =>
    have hdig := Char.isDigit_iff_toNat.mp (h.digits c List.mem_cons_self)
    have h0 : '0'.toNat = 48 := rfl
    have hdash : '-'.toNat = 45 := rfl
    refine List.cons_lt_cons_iff.mpr (.inl ?_)
    change '-'.toNat < c.toNat
    omega

theorem rank_lt {n : ℕ} (h : n < 100) : Digits.rank n < 2000 := by
  unfold Digits.rank
  split <;> omega

theorem fieldRank_inj {m n : ℤ} (hm : -100 < m ∧ m < 100) (hn : -100 < n ∧ n < 100)
    (h : fieldRank m = fieldRank n) : m = n := by
  unfold fieldRank at h
  by_cases hm0 : 0 ≤ m
  · by_cases hn0 : 0 ≤ n
    · rw [if_pos hm0, if_pos hn0] at h
      omega
    · rw [if_pos hm0, if_neg hn0] at h
      have := rank_lt (n := (-n).toNat) (by omega)
      omega
  · by_cases hn0 : 0 ≤ n
    · rw [if_neg hm0, if_pos hn0] at h
      have := rank_lt (n := (-m).toNat) (by omega)
      omega
    · rw [if_neg hm0, if_neg hn0] at h
      have := Digits.rank_inj (by omega) (by omega) h
      omega

section Fields
variable {m n : ℤ} {c : Char} {x y : List Char}

theorem decimal02_append_lt (hm : -100 < m ∧ m < 100) (hn : -100 < n ∧ n < 100) (hc : '9' < c)
    (h : fieldRank m < fieldRank n) : decimal02 m ++ c :: x < decimal02 n ++ c :: y := by
  unfold fieldRank at h
  by_cases hm0 : 0 ≤ m
  · by_cases hn0 : 0 ≤ n
    · rw [if_pos hm0, if_pos hn0] at h
      have htm := decimal02_of_nonneg hm0 hm.2
      have htn := decimal02_of_nonneg hn0 hn.2
      exact Digits.append_lt_append (htm.lt htn (by omega)) (htm.length.trans htn.length.symm)
    · rw [if_pos hm0, if_neg hn0] at h
      have := rank_lt (n := (-n).toNat) (by omega)
      omega
  · rw [decimal02_of_neg (by omega)]
    by_cases hn0 : 0 ≤ n
    · exact (decimal02_of_nonneg hn0 hn.2).dash_lt _ _
    · rw [if_neg hm0, if_neg hn0] at h
      rw [decimal02_of_neg (by omega)]
      exact List.cons_lt_cons_iff.mpr (.inr ⟨rfl,Digits.toDigits_append_lt (by omega) (by omega) hc h⟩)

/-- Two fields before the same separator, and what follows it. -/
theorem decimal02_append_lt_iff (hm : -100 < m ∧ m < 100) (hn : -100 < n ∧ n < 100) (hc : '9' < c) :
    decimal02 m ++ c :: x < decimal02 n ++ c :: y ↔ fieldRank m < fieldRank n ∨ m = n ∧ x < y := by
  rcases lt_trichotomy (fieldRank m) (fieldRank n) with hlt | heq | hgt
  · exact iff_of_true (decimal02_append_lt hm hn hc hlt) (.inl hlt)
  · have hmn := fieldRank_inj hm hn heq
    rw [hmn, Digits.append_lt_append_left_iff, Digits.cons_lt_cons_left_iff]
    exact ⟨fun h => .inr ⟨rfl,h⟩,fun h => (h.resolve_left (lt_irrefl _)).2⟩
  · have hle := (decimal02_append_lt (x := y) (y := x) hn hm hc hgt).not_gt
    refine iff_of_false hle ?_
    rintro (h | ⟨h,_⟩)
    · omega
    · rw [h] at hgt
      omega

theorem decimal02_inj (hm : -100 < m ∧ m < 100) (hn : -100 < n ∧ n < 100) (h : decimal02 m = decimal02 n) : m = n := by
  have hno : ∀ {a b : ℤ}, -100 < a ∧ a < 100 → -100 < b ∧ b < 100 → decimal02 a = decimal02 b →
      ¬ fieldRank a < fieldRank b := by
    intro a b ha hb hab hlt
    have htext := decimal02_append_lt (c := ':') (x := []) (y := []) ha hb (by decide) hlt
    rw [hab] at htext
    exact absurd htext (lt_irrefl _)
  exact fieldRank_inj hm hn (le_antisymm (not_lt.mp (hno hn hm h.symm)) (not_lt.mp (hno hm hn h)))

end Fields

/-! ## The stamp -/

/-- `hr` and `min` of the four functions. -/
def shownHour (getTime : ℕ) : ℤ := ((CInt.toInt ((getTime / 60 : ℕ) : ℤ)).tdiv 60).tmod 24 - 4

def shownMinute (getTime : ℕ) : ℤ := (CInt.toInt ((getTime / 60 : ℕ) : ℤ)).tmod 60

/-- The hour and minute as printed. -/
def clockText (getTime : ℕ) : List Char := decimal02 (shownHour getTime) ++ ':' :: decimal02 (shownMinute getTime)

/-- The stamp without its last character. -/
def stampText (P : Platform) (getTime : ℕ) : List Char :=
  decimal ((P.timeToTm getTime).tmYear + 1900) ++ '-' :: (decimal02 (P.timeToTm getTime).tmMon ++
    '-' :: (decimal02 (P.timeToTm getTime).tmMday ++ '-' :: clockText getTime))

theorem fields_assoc (y m d h n : List Char) : y ++ '-' :: m ++ '-' :: d ++ '-' :: h ++ ':' :: n ++ ['_'] =
    y ++ '-' :: (m ++ '-' :: (d ++ '-' :: (h ++ ':' :: n))) ++ ['_'] := by
  simp only [List.append_assoc, List.cons_append]

theorem timeStamp_eq (P : Platform) (getTime : ℕ) : timeStamp P getTime = stampText P getTime ++ ['_'] := by
  unfold stampText clockText shownHour shownMinute
  exact fields_assoc _ _ _ _ _

theorem mem_stampText {P : Platform} {getTime : ℕ} {c : Char} (h : c ∈ stampText P getTime) :
    c.isDigit ∨ c = '-' ∨ c = ':' := by
  simp only [stampText, clockText, List.mem_append, List.mem_cons] at h
  rcases h with h | h | h | h | h | h | h | h | h
  · exact (mem_decimal h).imp_right .inl
  · exact .inr (.inl h)
  · exact (mem_decimal02 h).imp_right .inl
  · exact .inr (.inl h)
  · exact (mem_decimal02 h).imp_right .inl
  · exact .inr (.inl h)
  · exact (mem_decimal02 h).imp_right .inl
  · exact .inr (.inr h)
  · exact (mem_decimal02 h).imp_right .inl

/-- The stamp and what follows it are read off a name. -/
theorem timeStamp_append_inj {P : Platform} {s t : ℕ} {x y : List Char}
    (h : timeStamp P s ++ x = timeStamp P t ++ y) : timeStamp P s = timeStamp P t ∧ x = y := by
  have hnot : ∀ u, '_' ∉ stampText P u := by
    intro u hm
    rcases mem_stampText hm with h | h | h
    · exact absurd h (by decide)
    · exact absurd h (by decide)
    · exact absurd h (by decide)
  rw [timeStamp_eq, timeStamp_eq, List.append_assoc, List.append_assoc] at h
  obtain ⟨hstamp,hrest⟩ := Digits.append_cons_inj (hnot s) (hnot t) h
  rw [timeStamp_eq, timeStamp_eq, hstamp]
  exact ⟨rfl,hrest⟩

/-- A stamp holds no slash. -/
theorem slash_notMem_timeStamp (P : Platform) (getTime : ℕ) : '/' ∉ timeStamp P getTime := by
  intro hm
  rw [timeStamp_eq] at hm
  rcases List.mem_append.mp hm with hm | hm
  · rcases mem_stampText hm with h | h | h
    · exact absurd h (by decide)
    · exact absurd h (by decide)
    · exact absurd h (by decide)
  · exact absurd (List.mem_singleton.mp hm) (by decide)

/-! ## Correct dates -/

/-- `time_to_tm` gives the date of this second in the calendar. -/
def UtcDate (P : Platform) (getTime : ℕ) (d : Calendar.Date) : Prop :=
  P.timeToTm getTime = ⟨((70 + d.year : ℕ) : ℤ),d.month,d.day⟩ ∧ d.number = getTime / 86400

section Dates
variable {P : Platform} {s t : ℕ} {d e : Calendar.Date}

/-- Before minute `2^31` the fields of the clock are those of the day. -/
theorem shownHour_eq (h : s < 60 * 2147483648) : shownHour s = ((s / 3600 % 24 : ℕ) : ℤ) - 4 := by
  have hmin : CInt.toInt ((s / 60 : ℕ) : ℤ) = ((s / 60 : ℕ) : ℤ) := CInt.toInt_natCast (by omega)
  have hdiv : s / 60 / 60 = s / 3600 := by omega
  rw [shownHour, hmin]
  change ((((s / 60) / 60 % 24 : ℕ) : ℤ)) - 4 = _
  rw [hdiv]

theorem shownMinute_eq (h : s < 60 * 2147483648) : shownMinute s = ((s / 60 % 60 : ℕ) : ℤ) := by
  have hmin : CInt.toInt ((s / 60 : ℕ) : ℤ) = ((s / 60 : ℕ) : ℤ) := CInt.toInt_natCast (by omega)
  rw [shownMinute, hmin]
  rfl

theorem UtcDate.month_field (hd : UtcDate P s d) : TwoDigits d.month (decimal02 (P.timeToTm s).tmMon) := by
  have hm := d.month_lt
  rw [hd.1]
  exact decimal02_natCast (by omega)

theorem UtcDate.day_field (hd : UtcDate P s d) : TwoDigits d.day (decimal02 (P.timeToTm s).tmMday) := by
  have hm := d.day_lt
  rw [hd.1]
  exact decimal02_natCast (by omega)

theorem UtcDate.year_field (hd : UtcDate P s d) :
    decimal ((P.timeToTm s).tmYear + 1900) = Nat.toDigits 10 (1970 + d.year) := by
  have hy : (P.timeToTm s).tmYear + 1900 = ((1970 + d.year : ℕ) : ℤ) := by
    rw [hd.1]
    push_cast
    ring
  rw [hy, decimal_natCast]

theorem year_digits (n : ℕ) : ∀ c ∈ Nat.toDigits 10 n, c.isDigit :=
  fun _ hc => Nat.isDigit_of_mem_toDigits (by omega) (by omega) hc

theorem shownHour_bounds (s : ℕ) : -100 < shownHour s ∧ shownHour s < 100 := by
  have hlo := Int.lt_tmod_of_pos ((CInt.toInt ((s / 60 : ℕ) : ℤ)).tdiv 60) (b := 24) (by omega)
  have hhi := Int.tmod_lt_of_pos ((CInt.toInt ((s / 60 : ℕ) : ℤ)).tdiv 60) (b := 24) (by omega)
  unfold shownHour
  omega

theorem shownMinute_bounds (s : ℕ) : -100 < shownMinute s ∧ shownMinute s < 100 := by
  have hlo := Int.lt_tmod_of_pos (CInt.toInt ((s / 60 : ℕ) : ℤ)) (b := 60) (by omega)
  have hhi := Int.tmod_lt_of_pos (CInt.toInt ((s / 60 : ℕ) : ℤ)) (b := 60) (by omega)
  unfold shownMinute
  omega

theorem colon_notMem_decimal02 (n : ℤ) : ':' ∉ decimal02 n := by
  intro hm
  rcases mem_decimal02 hm with h | h
  · exact absurd h (by decide)
  · exact absurd h (by decide)

theorem clockText_inj (h : clockText s = clockText t) : shownHour s = shownHour t ∧ shownMinute s = shownMinute t := by
  obtain ⟨hhour,hminute⟩ := Digits.append_cons_inj (colon_notMem_decimal02 _) (colon_notMem_decimal02 _) h
  exact ⟨decimal02_inj (shownHour_bounds s) (shownHour_bounds t) hhour,
    decimal02_inj (shownMinute_bounds s) (shownMinute_bounds t) hminute⟩

/-- Within the range of an `int` minute count, a stamp is a minute. -/
theorem timeStamp_eq_iff (hd : UtcDate P s d) (he : UtcDate P t e) (hs : s < 60 * 2147483648)
    (ht : t < 60 * 2147483648) : timeStamp P s = timeStamp P t ↔ s / 60 = t / 60 := by
  constructor
  · intro h
    rw [timeStamp_eq, timeStamp_eq] at h
    have htext := List.append_cancel_right h
    have hdash : ∀ n, '-' ∉ Nat.toDigits 10 n := fun n hm => absurd (year_digits n _ hm) (by decide)
    rw [stampText, stampText, hd.year_field, he.year_field] at htext
    obtain ⟨hyear,htext⟩ := Digits.append_cons_inj (hdash _) (hdash _) htext
    obtain ⟨hmonth,htext⟩ := List.append_inj htext (hd.month_field.length.trans he.month_field.length.symm)
    obtain ⟨hday,htext⟩ := List.append_inj (List.cons.inj htext).2 (hd.day_field.length.trans he.day_field.length.symm)
    obtain ⟨hhour,hminute⟩ := clockText_inj (List.cons.inj htext).2
    have hy : 1970 + d.year = 1970 + e.year := by
      rw [← Nat.ofDigitChars_ten_toDigits (n := 1970 + d.year), hyear, Nat.ofDigitChars_ten_toDigits]
    have hm := hd.month_field.inj (hmonth ▸ he.month_field)
    have hdd := hd.day_field.inj (hday ▸ he.day_field)
    have hnum : d.number = e.number := Calendar.Date.number_eq_of_fields (by omega) hm hdd
    rw [hd.2, he.2] at hnum
    rw [shownHour_eq hs, shownHour_eq ht] at hhour
    rw [shownMinute_eq hs, shownMinute_eq ht] at hminute
    omega
  · intro h
    have hdiv : ∀ u, u / 60 / 1440 = u / 86400 := fun u => by omega
    have hnum : d.number = e.number := by rw [hd.2, he.2, ← hdiv s, ← hdiv t, h]
    obtain ⟨hy,hm,hdd⟩ := Calendar.Date.fields_of_number_eq hnum
    have htm : P.timeToTm s = P.timeToTm t := by rw [hd.1, he.1, hy, hm, hdd]
    rw [timeStamp_eq, timeStamp_eq, stampText, stampText, clockText, clockText, shownHour, shownHour, shownMinute,
      shownMinute, htm, h]

end Dates

/-- The names of two plain moves are equal exactly when their minutes and mangled paths are. -/
theorem unlinkName_eq_iff {P : Platform} {s t : ℕ} {d e : Calendar.Date} (hd : UtcDate P s d) (he : UtcDate P t e)
    (hs : s < 60 * 2147483648) (ht : t < 60 * 2147483648) (p q : Path) :
    trashName P [] s p [] = trashName P [] t q [] ↔ s / 60 = t / 60 ∧ strreplace p = strreplace q := by
  rw [← timeStamp_eq_iff hd he hs ht]
  constructor
  · intro h
    simp only [trashName, List.append_assoc, List.append_nil] at h
    exact timeStamp_append_inj (List.cons.inj (List.append_cancel_left (List.append_cancel_left h))).2
  · rintro ⟨hstamp,hpath⟩
    rw [trashName, trashName, hstamp, hpath]

/-- The first day of the epoch. -/
def epochDay : Calendar.Date := ⟨0,0,1,by omega,by omega,by decide⟩

theorem bare_utcDate {s : ℕ} (h : s < 86400) : UtcDate .bare s epochDay := by
  refine ⟨rfl,?_⟩
  rw [Nat.div_eq_of_lt h]
  rfl

theorem unlinkName_eq_first_minute :
    trashName .bare [] 0 ['/','a'] [] = trashName .bare [] 59 ['/','a'] [] ↔
      0 / 60 = 59 / 60 ∧ strreplace ['/','a'] = strreplace ['/','a'] :=
  unlinkName_eq_iff (bare_utcDate (by omega)) (bare_utcDate (by omega)) (by omega) (by omega) ['/','a'] ['/','a']

/-! ## The operation behind a name -/

/-- The operations on a file and what they append to its name. -/
inductive Operation where
  | move
  | compress
  | encrypt
  | encComp
deriving DecidableEq, Repr

def Operation.suffix : Operation → Path
  | .move => []
  | .compress => cmpSuffix
  | .encrypt => encSuffix
  | .encComp => encSuffix ++ cmpSuffix

/-- What a name is made of: the operation, the buffer as it was allocated, the time and the path. -/
structure NameRequest where
  op : Operation
  buffer : List Byte
  time : ℕ
  path : Path

/-- The leftover of the buffer; only `processunlink` clears it first. -/
def NameRequest.stale (r : NameRequest) : List Char :=
  match r.op with
  | .move => []
  | _ => staleTail r.buffer

def NameRequest.name (P : Platform) (r : NameRequest) : Path := trashName P r.stale r.time r.path r.op.suffix

/-- The name a request comes to build: a plain move gives its `d_path` no buffer. -/
def NameRequest.built (P : Platform) (r : NameRequest) : Option Path :=
  match r.op with
  | .move => (P.dPathNull r.path).map (fun path => trashName P [] r.time path [])
  | _ => some (r.name P)

/-- A plain move comes back from `d_path`; the other operations do. -/
def NameRequest.Survives (P : Platform) (r : NameRequest) : Prop := r.op = .move → P.dPathNull r.path ≠ none

/-- The path of `q` ends, after mangling, with what the suffix of `p` has more than that of `q`. -/
def NameRequest.Imitates (q p : NameRequest) : Prop :=
  ∃ e, p.op.suffix = e ++ q.op.suffix ∧ strreplace q.path = strreplace p.path ++ e

theorem slash_notMem_suffix (op : Operation) : '/' ∉ op.suffix := by
  cases op <;> decide

theorem NameRequest.name_eq_iff (P : Platform) (p q : NameRequest) : p.name P = q.name P ↔
    p.stale = q.stale ∧ timeStamp P p.time = timeStamp P q.time ∧
      strreplace p.path ++ p.op.suffix = strreplace q.path ++ q.op.suffix := by
  have hshape : ∀ r : NameRequest, r.name P = (usr ++ r.stale ++ trashbin) ++
      '/' :: (timeStamp P r.time ++ (strreplace r.path ++ r.op.suffix)) := by
    intro r
    simp only [name, trashName, List.append_assoc, List.cons_append]
  have hslash : ∀ r : NameRequest, '/' ∉ timeStamp P r.time ++ (strreplace r.path ++ r.op.suffix) := by
    intro r hm
    rcases List.mem_append.mp hm with hm | hm
    · exact slash_notMem_timeStamp P _ hm
    · rcases List.mem_append.mp hm with hm | hm
      · exact slash_notMem_strreplace _ hm
      · exact slash_notMem_suffix _ hm
  rw [hshape p, hshape q]
  constructor
  · intro h
    obtain ⟨hdir,hfile⟩ := Digits.append_cons_inj_last (hslash p) (hslash q) h
    obtain ⟨hstamp,hrest⟩ := timeStamp_append_inj hfile
    exact ⟨List.append_cancel_left (List.append_cancel_right hdir),hstamp,hrest⟩
  · rintro ⟨hstale,hstamp,hrest⟩
    rw [hstale, hstamp, hrest]

theorem mangled_eq_iff (p q : NameRequest) :
    strreplace p.path ++ p.op.suffix = strreplace q.path ++ q.op.suffix ↔ q.Imitates p ∨ p.Imitates q := by
  rw [List.append_eq_append_iff]
  unfold NameRequest.Imitates
  constructor
  · rintro (⟨e,hq,hp⟩ | ⟨e,hp,hq⟩)
    · exact .inl ⟨e,hp,hq⟩
    · exact .inr ⟨e,hq,hp⟩
  · rintro (⟨e,hp,hq⟩ | ⟨e,hq,hp⟩)
    · exact .inl ⟨e,hq,hp⟩
    · exact .inr ⟨e,hp,hq⟩

theorem NameRequest.built_eq {P : Platform} {r : NameRequest} (hpath : ∀ path, P.dPathNull r.path = some path → path = r.path)
    (h : r.Survives P) : r.built P = some (r.name P) := by
  obtain ⟨op,buffer,time,path⟩ := r
  cases op with
  | move =>
    obtain ⟨path',hsome⟩ := Option.ne_none_iff_exists'.mp (h rfl)
    obtain rfl := hpath path' hsome
    have hbuilt : (NameRequest.mk .move buffer time path').built P =
        (P.dPathNull path').map (fun path => trashName P [] time path []) := rfl
    rw [hbuilt, hsome]
    rfl
  | compress | encrypt | encComp => rfl

theorem NameRequest.built_none {P : Platform} {r : NameRequest} (h : ¬ r.Survives P) : r.built P = none := by
  obtain ⟨op,buffer,time,path⟩ := r
  cases op with
  | move =>
    have hnone : P.dPathNull path = none := not_not.mp (fun hsome => h (fun _ => hsome))
    exact congrArg (Option.map _) hnone
  | compress | encrypt | encComp => exact absurd (fun hop => nomatch hop) h

/-- What two requests build differs unless both get through `d_path`, share minute and leftover, and one path imitates
the other's suffix. -/
theorem operation_told_iff (P : Platform) (hpath : ∀ path path', P.dPathNull path = some path' → path' = path)
    (p q : NameRequest) :
    (p.op ≠ q.op → ∀ name, p.built P = some name → q.built P ≠ some name) ↔
      (p.op ≠ q.op → p.Survives P → q.Survives P → p.stale = q.stale → timeStamp P p.time = timeStamp P q.time →
        ¬ q.Imitates p ∧ ¬ p.Imitates q) := by
  rw [← not_or]
  constructor
  · intro h hop hp hq hstale hstamp hi
    have hname := (NameRequest.name_eq_iff P p q).mpr ⟨hstale,hstamp,(mangled_eq_iff p q).mpr hi⟩
    apply h hop _ (NameRequest.built_eq (hpath _) hp)
    rw [hname]
    exact NameRequest.built_eq (hpath _) hq
  · intro h hop name hbuilt hbuilt'
    have hp : p.Survives P := by
      by_contra hdead
      rw [NameRequest.built_none hdead] at hbuilt
      cases hbuilt
    have hq : q.Survives P := by
      by_contra hdead
      rw [NameRequest.built_none hdead] at hbuilt'
      cases hbuilt'
    rw [NameRequest.built_eq (hpath _) hp] at hbuilt
    rw [NameRequest.built_eq (hpath _) hq] at hbuilt'
    have hname : p.name P = q.name P := Option.some.inj (hbuilt.trans hbuilt'.symm)
    obtain ⟨hstale,hstamp,hrest⟩ := (NameRequest.name_eq_iff P p q).mp hname
    exact h hop hp hq hstale hstamp ((mangled_eq_iff p q).mp hrest)

/-- The entries of `/a.enc` compressed and of `/b` compressed and encrypted. -/
theorem operation_told_apart :
    (Operation.compress ≠ Operation.encComp → ∀ name, (NameRequest.mk .compress [] 0 ['/','a','.','e','n','c']).built .bare =
        some name → (NameRequest.mk .encComp [] 0 ['/','b']).built .bare ≠ some name) ↔
      (Operation.compress ≠ Operation.encComp → (NameRequest.mk .compress [] 0 ['/','a','.','e','n','c']).Survives .bare →
        (NameRequest.mk .encComp [] 0 ['/','b']).Survives .bare → staleTail [] = staleTail [] →
        timeStamp .bare 0 = timeStamp .bare 0 →
        ¬ (NameRequest.mk .encComp [] 0 ['/','b']).Imitates (NameRequest.mk .compress [] 0 ['/','a','.','e','n','c']) ∧
        ¬ (NameRequest.mk .compress [] 0 ['/','a','.','e','n','c']).Imitates (NameRequest.mk .encComp [] 0 ['/','b'])) :=
  operation_told_iff .bare (fun _ _ h => nomatch h) ⟨.compress,[],0,['/','a','.','e','n','c']⟩ ⟨.encComp,[],0,['/','b']⟩

/-- A compression of `/a.enc` looks like a compression and encryption of `/a`. -/
theorem operation_not_told :
    ¬ ∀ p q : NameRequest, p.op ≠ q.op → ∀ name, p.built .bare = some name → q.built .bare ≠ some name := by
  intro h
  apply h ⟨.compress,[],0,['/','a','.','e','n','c']⟩ ⟨.encComp,[],0,['/','a']⟩ (by decide) _ rfl
  decide +kernel

/-! ## The order of stamps -/

/-- The hour printed for a second; from minute `2^31` on the `int` counts the minutes down to zero. -/
def clockHour (s : ℕ) : ℤ :=
  if s < 60 * 2147483648 then ((s / 3600 % 24 : ℕ) : ℤ) - 4 else -(((4294967296 - s / 60) / 60 % 24 : ℕ) : ℤ) - 4

def clockMinute (s : ℕ) : ℤ :=
  if s < 60 * 2147483648 then ((s / 60 % 60 : ℕ) : ℤ) else -(((4294967296 - s / 60) % 60 : ℕ) : ℤ)

/-- When the stamp of an earlier minute comes first: on another day always; on the same day unless
both hours are among the first four and differ. From minute `2^31` on both fields are negative and the
printed texts decide. -/
def StampsInOrder (s t : ℕ) : Prop :=
  s / 86400 ≠ t / 86400 ∨
  if t < 60 * 2147483648 then ¬ (s / 3600 % 24 < t / 3600 % 24 ∧ t / 3600 % 24 < 4)
  else fieldRank (clockHour s) < fieldRank (clockHour t) ∨
    clockHour s = clockHour t ∧ fieldRank (clockMinute s) < fieldRank (clockMinute t)

section Order
variable {P : Platform} {s t : ℕ} {d e : Calendar.Date}

/-- A year of four digits. -/
theorem UtcDate.year_length (hd : UtcDate P s d) (hy : 1970 + d.year < 10000) :
    (decimal ((P.timeToTm s).tmYear + 1900)).length = 4 := by
  have hle := (Nat.length_toDigits_le_iff (b := 10) (n := 1970 + d.year) (k := 4) (by omega) (by omega)).mpr hy
  have hge := (Nat.length_toDigits_le_iff (b := 10) (n := 1970 + d.year) (k := 3) (by omega) (by omega)).not.mpr
    (by omega)
  rw [hd.year_field]
  omega

/-- Earlier days have smaller stamps. -/
theorem timeStamp_lt_of_before (hd : UtcDate P s d) (he : UtcDate P t e) (hy : 1970 + e.year < 10000)
    (hb : d.Before e) : timeStamp P s < timeStamp P t := by
  have hyd : 1970 + d.year < 10000 := by
    rcases hb with h | ⟨h,_⟩ <;> omega
  have hly := (hd.year_length hyd).trans (he.year_length hy).symm
  rw [timeStamp_eq, timeStamp_eq, stampText, stampText, List.append_assoc, List.append_assoc]
  rcases hb with hyear | ⟨hyear,hrest⟩
  · apply Digits.append_lt_append _ hly
    rw [hd.year_field, he.year_field]
    rw [hd.year_field, he.year_field] at hly
    exact Digits.lt_of_ofDigitChars_lt (year_digits _) (year_digits _) hly (n := 0)
      (by rw [Nat.ofDigitChars_ten_toDigits, Nat.ofDigitChars_ten_toDigits]; omega)
  · rw [hd.year_field, he.year_field, hyear, Digits.append_lt_append_left_iff, List.cons_append, List.cons_append,
      Digits.cons_lt_cons_left_iff, List.append_assoc, List.append_assoc]
    rcases hrest with hmonth | ⟨hmonth,hday⟩
    · exact Digits.append_lt_append (hd.month_field.lt he.month_field hmonth)
        (hd.month_field.length.trans he.month_field.length.symm)
    · have hm : (P.timeToTm s).tmMon = (P.timeToTm t).tmMon := by rw [hd.1, he.1, hmonth]
      rw [hm, Digits.append_lt_append_left_iff, List.cons_append, List.cons_append, Digits.cons_lt_cons_left_iff,
        List.append_assoc, List.append_assoc]
      exact Digits.append_lt_append (hd.day_field.lt he.day_field hday)
        (hd.day_field.length.trans he.day_field.length.symm)

theorem date_append_lt_iff (y m d x z : List Char) :
    y ++ '-' :: (m ++ '-' :: (d ++ '-' :: x)) ++ ['_'] < y ++ '-' :: (m ++ '-' :: (d ++ '-' :: z)) ++ ['_'] ↔
      x ++ ['_'] < z ++ ['_'] := by
  simp only [List.append_assoc, List.cons_append, Digits.append_lt_append_left_iff, Digits.cons_lt_cons_left_iff]

/-- Within one day the clock decides. -/
theorem timeStamp_lt_iff_clock (htm : P.timeToTm s = P.timeToTm t) :
    timeStamp P s < timeStamp P t ↔ clockText s ++ ['_'] < clockText t ++ ['_'] := by
  rw [timeStamp_eq, timeStamp_eq, stampText, stampText, htm]
  exact date_append_lt_iff _ _ _ _ _

theorem clockText_lt_iff (s t : ℕ) : clockText s ++ ['_'] < clockText t ++ ['_'] ↔
    fieldRank (shownHour s) < fieldRank (shownHour t) ∨
      shownHour s = shownHour t ∧ fieldRank (shownMinute s) < fieldRank (shownMinute t) := by
  rw [clockText, clockText, List.append_assoc, List.append_assoc, List.cons_append, List.cons_append,
    decimal02_append_lt_iff (shownHour_bounds s) (shownHour_bounds t) (by decide),
    decimal02_append_lt_iff (shownMinute_bounds s) (shownMinute_bounds t) (by decide)]
  simp only [lt_irrefl, and_false, or_false]

/-- The order of two clocks before minute `2^31`. -/
theorem clocks_in_order {a b m n : ℕ} (hb : b < 24) (hle : a ≤ b) (hmin : a = b → m < n) :
    (fieldRank ((a : ℤ) - 4) < fieldRank ((b : ℤ) - 4) ∨
      (a : ℤ) - 4 = (b : ℤ) - 4 ∧ fieldRank m < fieldRank n) ↔ ¬ (a < b ∧ b < 4) := by
  unfold fieldRank Digits.rank
  split_ifs <;> omega

/-- A year of four digits ends before the `int` of minutes wraps a second time. -/
theorem UtcDate.lt_wrap (hd : UtcDate P s d) (hy : 1970 + d.year < 10000) : s < 60 * 4294967296 := by
  have hnum := d.number_lt_year
  have hle := Calendar.daysBeforeYear_le (d.year+1)
  rw [hd.2] at hnum
  omega

theorem shownHour_eq_clockHour (h : s < 60 * 4294967296) : shownHour s = clockHour s := by
  unfold clockHour
  split
  · next hs => exact shownHour_eq hs
  · next hs =>
    have hmin : CInt.toInt ((s / 60 : ℕ) : ℤ) = -((4294967296 - s / 60 : ℕ) : ℤ) := by
      unfold CInt.toInt
      omega
    rw [shownHour, hmin, Int.neg_tdiv, Int.neg_tmod]
    rfl

theorem shownMinute_eq_clockMinute (h : s < 60 * 4294967296) : shownMinute s = clockMinute s := by
  unfold clockMinute
  split
  · next hs => exact shownMinute_eq hs
  · next hs =>
    have hmin : CInt.toInt ((s / 60 : ℕ) : ℤ) = -((4294967296 - s / 60 : ℕ) : ℤ) := by
      unfold CInt.toInt
      omega
    rw [shownMinute, hmin, Int.neg_tmod]
    rfl

end Order

/-- Exactly when the stamp of an earlier minute is the smaller text. -/
theorem timeStamp_lt_iff {P : Platform} {s t : ℕ} {d e : Calendar.Date} (hd : UtcDate P s d) (he : UtcDate P t e)
    (hy : 1970 + e.year < 10000) (hst : s < t) (hmin : s / 60 ≠ t / 60) :
    timeStamp P s < timeStamp P t ↔ StampsInOrder s t := by
  have hmono : s / 86400 ≤ t / 86400 := Nat.div_le_div_right hst.le
  unfold StampsInOrder
  by_cases hday : s / 86400 = t / 86400
  · obtain ⟨h₁,h₂,h₃⟩ := Calendar.Date.fields_of_number_eq (d := d) (e := e) (by rw [hd.2, he.2, hday])
    have htm : P.timeToTm s = P.timeToTm t := by rw [hd.1, he.1, h₁, h₂, h₃]
    have hwrap := he.lt_wrap hy
    rw [timeStamp_lt_iff_clock htm, clockText_lt_iff, or_iff_right (not_not.mpr hday)]
    split
    · next ht =>
      rw [shownHour_eq (hst.trans ht), shownHour_eq ht, shownMinute_eq (hst.trans ht), shownMinute_eq ht]
      exact clocks_in_order (by omega) (by omega) (by omega)
    · rw [shownHour_eq_clockHour (hst.trans hwrap), shownHour_eq_clockHour hwrap,
        shownMinute_eq_clockMinute (hst.trans hwrap), shownMinute_eq_clockMinute hwrap]
  · have hb : d.Before e := Calendar.Date.before_of_number_lt (by rw [hd.2, he.2]; omega)
    exact iff_of_true (timeStamp_lt_of_before hd he hy hb) (.inl hday)

/-- Five and six o'clock are shown as one and two. -/
theorem timeStamp_lt_morning : timeStamp .bare 18000 < timeStamp .bare 21600 ↔ StampsInOrder 18000 21600 :=
  timeStamp_lt_iff (d := epochDay) (e := epochDay) (bare_utcDate (by omega)) (bare_utcDate (by omega)) (by decide)
    (by omega) (by omega)

/-- Midnight is shown as `-4`, one o'clock as `-3`. -/
theorem timeStamp_not_lt : ¬ ∀ s t : ℕ, UtcDate .bare s epochDay → UtcDate .bare t epochDay → s < t →
    s / 60 ≠ t / 60 → timeStamp .bare s < timeStamp .bare t := by
  intro h
  have hlt := h 0 3600 (bare_utcDate (by omega)) (bare_utcDate (by omega)) (by omega) (by omega)
  rw [timeStamp_lt_iff_clock (s := 0) (t := 3600) rfl, clockText_lt_iff] at hlt
  exact absurd hlt (by decide)

/-! ## Room for a name -/

/-- The characters of the hour and the minute. -/
def clockWidth (s : ℕ) : ℕ :=
  (if clockHour s ≤ -10 then 3 else 2) + if clockMinute s ≤ -10 then 3 else 2

/-- A string with its terminating NUL fits a buffer. -/
def Fits (size : ℕ) (name : Path) : Prop := name.length + 1 ≤ size

instance (size : ℕ) (name : Path) : Decidable (Fits size name) := inferInstanceAs (Decidable (_ ≤ _))

/-- What is allocated for `trashbinfolder_filename`. -/
def Operation.nameSize (op : Operation) (infile : File) : ℕ :=
  match op with
  | .move => 4 + 9 + (dName infile).length + 26
  | _ => PATH_MAX

/-- The path is short enough for its buffer: for a plain move in terms of its last component. -/
def RoomForName (op : Operation) (buffer : List Byte) (s : ℕ) (infile : File) : Prop :=
  match op with
  | .move => infile.path.length + clockWidth s ≤ (dName infile).length + 11
  | _ => (staleTail buffer).length + clockWidth s + infile.path.length + op.suffix.length ≤ 4068

theorem length_decimal02 {n : ℤ} (h : -100 < n) (h' : n < 100) :
    (decimal02 n).length = if n ≤ -10 then 3 else 2 := by
  by_cases h0 : 0 ≤ n
  · rw [if_neg (by omega)]
    exact (decimal02_of_nonneg h0 h').length
  · rw [decimal02_of_neg (by omega), List.length_cons]
    by_cases hten : n ≤ -10
    · rw [if_pos hten, Digits.toDigits_of_lt_hundred (by omega) (by omega)]
      rfl
    · rw [if_neg hten, Nat.toDigits_of_lt_base (by omega)]
      rfl

theorem length_timeStamp {P : Platform} {s : ℕ} {d : Calendar.Date} (hd : UtcDate P s d) (hy : 1970 + d.year < 10000) :
    (timeStamp P s).length = 13 + clockWidth s := by
  have hwrap := hd.lt_wrap hy
  have hhour := length_decimal02 (shownHour_bounds s).1 (shownHour_bounds s).2
  have hminute := length_decimal02 (shownMinute_bounds s).1 (shownMinute_bounds s).2
  rw [shownHour_eq_clockHour hwrap] at hhour
  rw [shownMinute_eq_clockMinute hwrap] at hminute
  rw [timeStamp_eq, stampText, clockText, shownHour_eq_clockHour hwrap, shownMinute_eq_clockMinute hwrap]
  simp only [List.length_append, List.length_cons, List.length_nil, hd.year_length hy, hd.month_field.length,
    hd.day_field.length, hhour, hminute, clockWidth]
  omega

/-- The name fits its buffer exactly when the path leaves room for the stamp. -/
theorem name_fits_iff {P : Platform} {s : ℕ} {d : Calendar.Date} (hd : UtcDate P s d) (hy : 1970 + d.year < 10000)
    (op : Operation) (buffer : List Byte) (infile : File) :
    Fits (op.nameSize infile) ((NameRequest.mk op buffer s infile.path).name P) ↔ RoomForName op buffer s infile := by
  have hlen := length_timeStamp hd hy
  have husr : usr.length = 4 := rfl
  have htrash : trashbin.length = 9 := rfl
  unfold Fits NameRequest.name trashName
  simp only [List.length_append, List.length_cons, length_strreplace, hlen, husr, htrash]
  cases op with
  | move =>
    simp only [NameRequest.stale, Operation.nameSize, Operation.suffix, RoomForName, List.length_nil]
    omega
  | compress | encrypt | encComp =>
    simp only [NameRequest.stale, Operation.nameSize, RoomForName, PATH_MAX]
    omega

theorem name_fits_root : Fits (Operation.move.nameSize ⟨['/','a'],0⟩)
    ((NameRequest.mk .move [] 0 ['/','a']).name .bare) ↔ RoomForName .move [] 0 ⟨['/','a'],0⟩ :=
  name_fits_iff (d := epochDay) (bare_utcDate (by omega)) (by decide) .move [] ⟨['/','a'],0⟩

/-- A path of sixteen components, each of the greatest length; it has 4096 characters with its NUL. -/
def longest : Path := (List.replicate 15 ('/' :: List.replicate 255 'x')).flatten ++ '/' :: List.replicate 254 'x'

theorem length_longest : longest.length = PATH_MAX - 1 := by
  rw [longest, List.length_append, List.length_flatten, List.map_replicate]
  simp only [List.length_cons, List.length_replicate]
  rfl

/-- A file of one letter in a directory of eight, and a compression under the longest path. -/
theorem name_not_fits :
    ¬ Fits (Operation.move.nameSize ⟨['/','a','b','c','d','e','f','g','h','/','x'],0⟩)
      ((NameRequest.mk .move [] 0 ['/','a','b','c','d','e','f','g','h','/','x']).name .bare) ∧
    ¬ Fits (Operation.compress.nameSize ⟨longest,0⟩) ((NameRequest.mk .compress [] 0 longest).name .bare) := by
  constructor
  · decide +kernel
  · intro h
    have hlen := length_longest
    have hname : (NameRequest.mk .compress [] 0 longest).name .bare = trashName .bare [] 0 longest cmpSuffix := rfl
    have husr : usr.length = 4 := rfl
    rw [hname] at h
    unfold Fits trashName at h
    simp only [List.length_append, List.length_cons, length_strreplace, hlen, husr, Operation.nameSize, PATH_MAX] at h
    omega

end XClone

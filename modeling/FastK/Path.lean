import FastK.Lib.Calendar
import FastK.Types
/-!
# Paths, partition keys and file names

The key of a timestamp's month, day or hour, and the file names derived from it (`storage/path.rs`).  A key names one
interval of time: the timestamps with a given key are consecutive (`partitionKey_convex`), and different keys never
interleave (`partitionKey_lt_of_ne`).  Keys hold no dot, so the three kinds of chunk file names never collide
(`partitionDeltaChunkFileName_inj` and its neighbours).
-/
namespace FastK

open Calendar

def chunksDir : Text := "chunks"
def klineCategory : Text := "kline"
def tradeCategory : Text := "trade"
def bboCategory : Text := "bbo"
def bookDeltaCategory : Text := "book_delta"

/-! ## Timestamps -/

def msPerDay : Int := 86400000
def msPerHour : Int := 3600000

def dayOfTs (ts : Int) : Int := ts / msPerDay

/-- The days chrono represents: -262143-01-01 to 262142-12-31. -/
def minDay : Int := -96465292
def maxDay : Int := 95026236

/-- `DateTime::from_timestamp_millis` answers. -/
def TsInRange (ts : Int) : Prop := minDay ≤ dayOfTs ts ∧ dayOfTs ts ≤ maxDay

instance (ts : Int) : Decidable (TsInRange ts) := inferInstanceAs (Decidable (_ ∧ _))

def timestampOutOfRange (ts : Int) : FastKError := .invalidInput (words ["timestamp out of range: ", showInt ts])

/-- `{:04}-{:02}` of a day. -/
def monthText (day : Int) : Text := Text.padInt 4 (year day) ++ '-' :: Text.pad 2 (month day)

/-- `{:04}-{:02}-{:02}` of a day. -/
def dayText (day : Int) : Text := monthText day ++ '-' :: Text.pad 2 (dayOfMonth day)

def hourOfDay (ts : Int) : Nat := (ts / msPerHour % 24).toNat

/-- `{:04}-{:02}-{:02}T{:02}` of a timestamp. -/
def hourText (ts : Int) : Text := dayText (dayOfTs ts) ++ 'T' :: Text.pad 2 (hourOfDay ts)

def monthKey (ts : Int) : Result Text :=
  if TsInRange ts then .ok (monthText (dayOfTs ts)) else .error (timestampOutOfRange ts)

def partitionKey (ts : Int) (unit : PartitionUnit) : Result Text :=
  if TsInRange ts then
    match unit with
    | .month => .ok (monthText (dayOfTs ts))
    | .day => .ok (dayText (dayOfTs ts))
    | .hour => .ok (hourText ts)
    | .rows | .bytes =>
      .error (.invalidInput (words ["partition unit ", unit.asStr, " is not implemented for timestamp partitioning"]))
  else .error (timestampOutOfRange ts)

/-- The first millisecond of the next UTC month, where chrono has one. -/
def nextMonthStart (ts : Int) : Result Int :=
  if TsInRange ts ∧ monthStart (monthIndex (dayOfTs ts) + 1) ≤ maxDay then
    .ok (monthStart (monthIndex (dayOfTs ts) + 1) * msPerDay)
  else .error (.invalidInput "timestamp outside supported UTC month range")

/-! ## File names -/

def partitionChunkFileName (partitionKey : Text) : Text := partitionKey ++ ".chunk".toList

def partitionDeltaChunkFileName (partitionKey : Text) (generation : Nat) : Text :=
  partitionKey ++ ".delta.g".toList ++ Text.pad 8 generation ++ ".chunk".toList

def partitionMergedChunkFileName (partitionKey : Text) (generation : Nat) : Text :=
  partitionKey ++ ".g".toList ++ Text.pad 8 generation ++ ".chunk".toList

def monthChunkFileName (ts : Int) : Result Text :=
  match monthKey ts with
  | .error e => .error e
  | .ok key => .ok (partitionChunkFileName key)

def chunkRelativePath (fileName : Text) : Text := "chunks/".toList ++ fileName

def sidecarRelativePath (chunkRelativePath extension : Text) : Text := chunkRelativePath ++ '.' :: extension

/-- A directory below `series/`, by its components. -/
abbrev Dir := List Text

def pathComponents (t : Text) : Dir := (t.splitOn '/').filter (fun c => c ≠ [] ∧ c ≠ ['.'])

/-- One component further: `..` goes back, also out of `series/` and into it again. -/
def stepPath (d : Dir) (component : Text) : Dir :=
  if component = "..".toList then
    match d.getLast? with
    | none => [component]
    | some last => if last = component then d ++ [component] else if last = ['/'] then d else d.dropLast
  else if d = ["..".toList] ∧ component = "series".toList then []
  else d ++ [component]

/-- `Path::join`: empty and `.` components are dropped, and an absolute path replaces the one before. -/
def joinPath (d : Dir) (t : Text) : Dir := (pathComponents t).foldl stepPath (if t.head? = some '/' then [['/']] else d)

/-- The directory of a series.  One that does not lie in `series/` begins with `..` or `/`.  The text alone says what
a `..` goes back from; the operating system asks that the directory it leaves exists.  Names that go down have none.
-/
def seriesDir (symbol category name : Text) : Dir := joinPath (joinPath (joinPath [] symbol) category) name

def leavesSeries (d : Dir) : Bool := d.head? = some "..".toList || d.head? = some ['/']

/-! ## The slot of a timestamp -/

/-- The number of the month, day or hour that holds a timestamp. -/
def slot : PartitionUnit → Int → Int
  | .day, ts => dayOfTs ts
  | .hour, ts => ts / msPerHour
  | _, ts => monthIndex (dayOfTs ts)

theorem dayOfTs_mono {a b : Int} (h : a ≤ b) : dayOfTs a ≤ dayOfTs b := by
  unfold dayOfTs msPerDay
  omega

theorem slot_mono (u : PartitionUnit) {a b : Int} (h : a ≤ b) : slot u a ≤ slot u b := by
  cases u with
  | day => exact dayOfTs_mono h
  | hour => exact Int.ediv_le_ediv (by decide) h
  | month => exact monthIndex_mono (dayOfTs_mono h)
  | rows => exact monthIndex_mono (dayOfTs_mono h)
  | bytes => exact monthIndex_mono (dayOfTs_mono h)

theorem tsInRange_convex {a b c : Int} (hab : a ≤ b) (hbc : b ≤ c) (ha : TsInRange a) (hc : TsInRange c) :
    TsInRange b :=
  ⟨le_trans ha.1 (dayOfTs_mono hab), le_trans (dayOfTs_mono hbc) hc.2⟩

theorem dash_notMem_pad (w n : Nat) : '-' ∉ Text.pad w n := fun h => absurd (Text.pad_isDigit h) (by decide)

theorem t_notMem_pad (w n : Nat) : 'T' ∉ Text.pad w n := fun h => absurd (Text.pad_isDigit h) (by decide)

theorem cut_inj {c : Char} {a a' b b' : Text} (hb : c ∉ b) (hb' : c ∉ b') (h : a ++ c :: b = a' ++ c :: b') :
    a = a' ∧ b = b' := by
  have h1 := Text.rsplitOnce_append hb a
  rw [h, Text.rsplitOnce_append hb' a'] at h1
  exact ⟨(Prod.mk.inj (Option.some.inj h1)).1.symm, (Prod.mk.inj (Option.some.inj h1)).2.symm⟩

theorem monthText_inj {a b : Int} (h : monthText a = monthText b) : monthIndex a = monthIndex b := by
  obtain ⟨hy, hm⟩ := cut_inj (dash_notMem_pad _ _) (dash_notMem_pad _ _) h
  exact monthIndex_eq_of (Text.padInt_injective hy) (Text.pad_injective hm)

theorem dayText_inj {a b : Int} (h : dayText a = dayText b) : a = b := by
  obtain ⟨hm, hd⟩ := cut_inj (dash_notMem_pad _ _) (dash_notMem_pad _ _) h
  exact day_eq_of (monthText_inj hm) (Text.pad_injective hd)

theorem hourText_inj {a b : Int} (h : hourText a = hourText b) : a / msPerHour = b / msPerHour := by
  obtain ⟨hd, hh⟩ := cut_inj (t_notMem_pad _ _) (t_notMem_pad _ _) h
  have h1 := dayText_inj hd
  have h2 := Text.pad_injective hh
  unfold dayOfTs msPerDay at h1
  unfold hourOfDay msPerHour at h2
  unfold msPerHour
  omega

theorem monthText_congr {a b : Int} (h : monthIndex a = monthIndex b) : monthText a = monthText b := by
  unfold monthText year month
  rw [h]

theorem dayOfTs_eq_of_hour {a b : Int} (h : a / msPerHour = b / msPerHour) : dayOfTs a = dayOfTs b := by
  unfold dayOfTs msPerDay
  unfold msPerHour at h
  omega

theorem partitionKey_ok {ts : Int} {u : PartitionUnit} {k : Text} (h : partitionKey ts u = .ok k) :
    TsInRange ts ∧ u.isTimeBased = true := by
  unfold partitionKey at h
  split at h
  · rename_i hr
    refine ⟨hr, ?_⟩
    cases u <;> first | rfl | cases h
  · cases h

theorem partitionKey_of_inRange {ts : Int} {u : PartitionUnit} (h : TsInRange ts) (hu : u.isTimeBased = true) :
    ∃ k, partitionKey ts u = .ok k := by
  unfold partitionKey
  rw [if_pos h]
  cases u <;> first | exact ⟨_, rfl⟩ | cases hu

theorem monthKey_eq (ts : Int) : monthKey ts = partitionKey ts .month := rfl

/-- **Timestamps with the same key lie in the same slot.** -/
theorem slot_eq_of_key {a b : Int} {u : PartitionUnit} {k : Text} (ha : partitionKey a u = .ok k)
    (hb : partitionKey b u = .ok k) : slot u a = slot u b := by
  have hra := (partitionKey_ok ha).1
  have hrb := (partitionKey_ok hb).1
  unfold partitionKey at ha hb
  rw [if_pos hra] at ha
  rw [if_pos hrb] at hb
  cases u with
  | month =>
    have h : monthText (dayOfTs a) = monthText (dayOfTs b) := by
      rw [Except.ok.inj ha, Except.ok.inj hb]
    exact monthText_inj h
  | day =>
    have h : dayText (dayOfTs a) = dayText (dayOfTs b) := by
      rw [Except.ok.inj ha, Except.ok.inj hb]
    exact dayText_inj h
  | hour =>
    have h : hourText a = hourText b := by
      rw [Except.ok.inj ha, Except.ok.inj hb]
    exact hourText_inj h
  | rows => cases ha
  | bytes => cases ha

theorem key_eq_of_slot {a b : Int} {u : PartitionUnit} {k : Text} (ha : partitionKey a u = .ok k) (hb : TsInRange b)
    (h : slot u a = slot u b) : partitionKey b u = .ok k := by
  have hra := (partitionKey_ok ha).1
  unfold partitionKey at ha ⊢
  rw [if_pos hra] at ha
  rw [if_pos hb]
  cases u with
  | month =>
    rw [← Except.ok.inj ha]
    exact congrArg Except.ok (monthText_congr h.symm)
  | day =>
    rw [← Except.ok.inj ha]
    exact congrArg (fun d => Except.ok (dayText d)) h.symm
  | hour =>
    rw [← Except.ok.inj ha]
    have hd := dayOfTs_eq_of_hour (show a / msPerHour = b / msPerHour from h)
    have hh : hourOfDay a = hourOfDay b := by
      unfold hourOfDay
      rw [show a / msPerHour = b / msPerHour from h]
    simp only [hourText, hd, hh]
  | rows => cases ha
  | bytes => cases ha

/-- **The timestamps of a partition are consecutive.** -/
theorem partitionKey_convex {a b c : Int} {u : PartitionUnit} {k : Text} (hab : a ≤ b) (hbc : b ≤ c)
    (ha : partitionKey a u = .ok k) (hc : partitionKey c u = .ok k) : partitionKey b u = .ok k := by
  have h := slot_eq_of_key ha hc
  have h1 := slot_mono u hab
  have h2 := slot_mono u hbc
  exact key_eq_of_slot ha (tsInRange_convex hab hbc (partitionKey_ok ha).1 (partitionKey_ok hc).1) (by omega)

/-- **Different partitions never interleave**: the order of one pair of their timestamps is the order of every pair. -/
theorem partitionKey_lt_of_ne {a b a' b' : Int} {u : PartitionUnit} {k l : Text} (hne : k ≠ l)
    (ha : partitionKey a u = .ok k) (ha' : partitionKey a' u = .ok k) (hb : partitionKey b u = .ok l)
    (hb' : partitionKey b' u = .ok l) (h : a ≤ b) :
    a' < b' := by
  have h1 := slot_eq_of_key ha ha'
  have h2 := slot_eq_of_key hb hb'
  have h3 := slot_mono u h
  have hs : slot u a ≠ slot u b := by
    intro heq
    have := key_eq_of_slot ha (partitionKey_ok hb).1 heq
    rw [hb] at this
    exact hne (Except.ok.inj this).symm
  by_contra hle
  have h4 := slot_mono u (not_lt.1 hle)
  omega

/-- The next month begins after every timestamp of this one and before every later month's. -/
theorem nextMonthStart_spec {ts e : Int} (h : nextMonthStart ts = .ok e) (t : Int) :
    t < e ↔ slot .month t ≤ slot .month ts := by
  unfold nextMonthStart at h
  split at h
  · rw [← Except.ok.inj h]
    have hg := monthStart_le_iff (monthIndex (dayOfTs ts) + 1) (dayOfTs t)
    have hdiv : t < monthStart (monthIndex (dayOfTs ts) + 1) * msPerDay ↔
      dayOfTs t < monthStart (monthIndex (dayOfTs ts) + 1) := by
      unfold dayOfTs msPerDay
      omega
    rw [hdiv]
    show _ ↔ monthIndex (dayOfTs t) ≤ monthIndex (dayOfTs ts)
    omega
  · cases h

/-! ## The characters of keys -/

/-- Digits, the dash and the `T` between date and hour. -/
def IsKeyChar (c : Char) : Prop := c = '-' ∨ c = 'T' ∨ c.isDigit = true

instance (c : Char) : Decidable (IsKeyChar c) := inferInstanceAs (Decidable (_ ∨ _ ∨ _))

theorem isKeyChar_pad {w n : Nat} {c : Char} (h : c ∈ Text.pad w n) : IsKeyChar c := .inr (.inr (Text.pad_isDigit h))

theorem isKeyChar_monthText {d : Int} {c : Char} (h : c ∈ monthText d) : IsKeyChar c := by
  rcases List.mem_append.1 h with h | h
  · rcases Text.mem_padInt h with rfl | h
    · exact .inl rfl
    · exact .inr (.inr h)
  · rcases List.mem_cons.1 h with rfl | h
    · exact .inl rfl
    · exact isKeyChar_pad h

theorem isKeyChar_dayText {d : Int} {c : Char} (h : c ∈ dayText d) : IsKeyChar c := by
  rcases List.mem_append.1 h with h | h
  · exact isKeyChar_monthText h
  · rcases List.mem_cons.1 h with rfl | h
    · exact .inl rfl
    · exact isKeyChar_pad h

/-- A text that only holds characters of keys. -/
def IsKey (k : Text) : Prop := ∀ c ∈ k, IsKeyChar c

theorem isKey_of_partitionKey {ts : Int} {u : PartitionUnit} {k : Text} (h : partitionKey ts u = .ok k) : IsKey k := by
  have hr := (partitionKey_ok h).1
  unfold partitionKey at h
  rw [if_pos hr] at h
  cases u with
  | month =>
    rw [← Except.ok.inj h]
    exact fun c => isKeyChar_monthText
  | day =>
    rw [← Except.ok.inj h]
    exact fun c => isKeyChar_dayText
  | hour =>
    rw [← Except.ok.inj h]
    intro c hc
    rcases List.mem_append.1 hc with hc | hc
    · exact isKeyChar_dayText hc
    · rcases List.mem_cons.1 hc with rfl | hc
      · exact .inr (.inl rfl)
      · exact isKeyChar_pad hc
  | rows => cases h
  | bytes => cases h

theorem IsKey.notMem {k : Text} (h : IsKey k) {c : Char} (hc : ¬ IsKeyChar c) : c ∉ k := fun hm => hc (h c hm)

/-! ## File names do not collide -/

theorem partitionChunkFileName_eq (k : Text) : partitionChunkFileName k = k ++ '.' :: "chunk".toList := rfl

theorem partitionDeltaChunkFileName_eq (k : Text) (g : Nat) :
    partitionDeltaChunkFileName k g = k ++ '.' :: ("delta.g".toList ++ Text.pad 8 g ++ ".chunk".toList) := by
  unfold partitionDeltaChunkFileName
  rw [show ".delta.g".toList = '.' :: "delta.g".toList from rfl]
  simp only [List.append_assoc, List.cons_append]

theorem partitionMergedChunkFileName_eq (k : Text) (g : Nat) :
    partitionMergedChunkFileName k g = k ++ '.' :: ("g".toList ++ Text.pad 8 g ++ ".chunk".toList) := by
  unfold partitionMergedChunkFileName
  rw [show ".g".toList = '.' :: "g".toList from rfl]
  simp only [List.append_assoc, List.cons_append]

variable {k l : Text}

theorem IsKey.dot_notMem (h : IsKey k) : '.' ∉ k := h.notMem (by decide)

theorem IsKey.d_notMem (h : IsKey k) : 'd' ∉ k := h.notMem (by decide)

theorem partitionChunkFileName_inj (hk : IsKey k) (hl : IsKey l)
    (h : partitionChunkFileName k = partitionChunkFileName l) : k = l :=
  (Text.append_cons_inj hk.dot_notMem hl.dot_notMem h).1

theorem partitionDeltaChunkFileName_inj {g g' : Nat} (hk : IsKey k) (hl : IsKey l)
    (h : partitionDeltaChunkFileName k g = partitionDeltaChunkFileName l g') : k = l ∧ g = g' := by
  rw [partitionDeltaChunkFileName_eq, partitionDeltaChunkFileName_eq] at h
  obtain ⟨h1, h2⟩ := Text.append_cons_inj hk.dot_notMem hl.dot_notMem h
  exact ⟨h1, Text.pad_injective (List.append_cancel_left (List.append_cancel_right h2))⟩

theorem partitionMergedChunkFileName_inj {g g' : Nat} (hk : IsKey k) (hl : IsKey l)
    (h : partitionMergedChunkFileName k g = partitionMergedChunkFileName l g') : k = l ∧ g = g' := by
  rw [partitionMergedChunkFileName_eq, partitionMergedChunkFileName_eq] at h
  obtain ⟨h1, h2⟩ := Text.append_cons_inj hk.dot_notMem hl.dot_notMem h
  exact ⟨h1, Text.pad_injective (List.append_cancel_left (List.append_cancel_right h2))⟩

theorem chunkFileName_ne_delta {g : Nat} (hk : IsKey k) (hl : IsKey l) :
    partitionChunkFileName k ≠ partitionDeltaChunkFileName l g := by
  intro h
  rw [partitionChunkFileName_eq, partitionDeltaChunkFileName_eq] at h
  have := (Text.append_cons_inj hk.dot_notMem hl.dot_notMem h).2
  exact absurd (List.cons.inj this).1 (by decide)

theorem chunkFileName_ne_merged {g : Nat} (hk : IsKey k) (hl : IsKey l) :
    partitionChunkFileName k ≠ partitionMergedChunkFileName l g := by
  intro h
  rw [partitionChunkFileName_eq, partitionMergedChunkFileName_eq] at h
  have := (Text.append_cons_inj hk.dot_notMem hl.dot_notMem h).2
  exact absurd (List.cons.inj this).1 (by decide)

theorem deltaFileName_ne_merged {g g' : Nat} (hk : IsKey k) (hl : IsKey l) :
    partitionDeltaChunkFileName k g ≠ partitionMergedChunkFileName l g' := by
  intro h
  rw [partitionDeltaChunkFileName_eq, partitionMergedChunkFileName_eq] at h
  have := (Text.append_cons_inj hk.dot_notMem hl.dot_notMem h).2
  exact absurd (List.cons.inj this).1 (by decide)

theorem chunkRelativePath_inj {a b : Text} (h : chunkRelativePath a = chunkRelativePath b) : a = b :=
  List.append_cancel_left h

theorem chunkFileName_endsWith (k : Text) : Text.endsWith (partitionChunkFileName k) ".chunk".toList = true :=
  Text.endsWith_iff.2 (List.suffix_append _ _)

theorem deltaFileName_endsWith (k : Text) (g : Nat) :
    Text.endsWith (partitionDeltaChunkFileName k g) ".chunk".toList = true :=
  Text.endsWith_iff.2 (List.suffix_append _ _)

theorem mergedFileName_endsWith (k : Text) (g : Nat) :
    Text.endsWith (partitionMergedChunkFileName k g) ".chunk".toList = true :=
  Text.endsWith_iff.2 (List.suffix_append _ _)

theorem mergedFileName_contains (hk : IsKey k) (g : Nat) :
    Text.contains (partitionMergedChunkFileName k g) ".delta.".toList = false := by
  refine Text.contains_eq_false (show 'd' ∈ ".delta.".toList by decide) (fun hm => ?_)
  unfold partitionMergedChunkFileName at hm
  rcases List.mem_append.1 hm with h | h
  · rcases List.mem_append.1 h with h | h
    · rcases List.mem_append.1 h with h | h
      · exact hk.d_notMem h
      · exact absurd h (by decide)
    · exact absurd (Text.pad_isDigit h) (by decide)
  · exact absurd h (by decide)

end FastK

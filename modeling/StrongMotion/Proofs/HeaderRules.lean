import StrongMotion.Proofs.HeaderParts

/-!
# The rules of header lines

`HeaderItem.Writes` says of the words of a line that they write the item's part of a header, and
`HeaderItem.Refuses` why a line writes none.  Both are relations on the words of one line.
`fill_eq_ok_iff` and `fill_eq_error_iff` tie them to `HeaderItem.fill`.
-/

namespace StrongMotion

/-- A bind that ends in a value went through a value. -/
theorem bind_eq_ok_iff {ε α β : Type} {x : Except ε α} {f : α → Except ε β} {b : β} :
    (x >>= f) = .ok b ↔ ∃ a, x = .ok a ∧ f a = .ok b := by
  cases x with
  | error e =>
    constructor
    · intro h
      cases h
    · intro ⟨a, ha, _⟩
      cases ha
  | ok a =>
    constructor
    · intro h
      exact ⟨a, rfl, h⟩
    · intro ⟨a', ha, h⟩
      cases ha
      exact h

theorem bind_eq_error_iff {ε α β : Type} {x : Except ε α} {f : α → Except ε β} {e : ε} :
    (x >>= f) = .error e ↔ x = .error e ∨ ∃ a, x = .ok a ∧ f a = .error e := by
  cases x with
  | error e' =>
    constructor
    · intro h
      cases h
      exact Or.inl rfl
    · intro h
      rcases h with h | ⟨a, ha, _⟩
      · cases h
        rfl
      · cases ha
  | ok a =>
    constructor
    · intro h
      exact Or.inr ⟨a, rfl, h⟩
    · intro h
      rcases h with h | ⟨a', ha, h⟩
      · cases h
      · cases ha
        exact h

theorem exists_eq_ok_of_toOption {ε α β : Type} {x : Except ε α} {f : α → β} {b : β}
    (h : x.toOption.map f = some b) : ∃ a, x = .ok a ∧ f a = b := by
  cases x with
  | error e => cases h
  | ok a => exact ⟨a, rfl, Option.some.inj h⟩

theorem exists_eq_ok_of_isSome {ε α : Type} {x : Except ε α} (h : x.toOption.isSome = true) :
    ∃ a, x = .ok a := by
  cases x with
  | error e => cases h
  | ok a => exact ⟨a, rfl⟩

theorem StationId.read_eq_error_iff {split : Bool} {text : Bytes} {f : Fault} :
    read split text = .error f ↔
      maxLength < (cut split text).code.length ∧ f = .stationTooLong (cut split text).code := by
  unfold read
  by_cases h : maxLength < (cut split text).code.length
  · simp [h, eq_comm]
  · simp [h]

namespace HeaderLine

/-! ## Fields -/

/-- The line has no field `index`. -/
def MissesField (l : HeaderLine) (index : Nat) (f : Fault) : Prop :=
  l.fields.length ≤ index ∧ f = .missingField l.label index l.line

/-- Why field `index` is not a number. -/
def MissesNumber (l : HeaderLine) (index : Nat) (f : Fault) : Prop :=
  l.MissesField index f ∨
    ∃ w, l.fields[index]? = some w ∧ w.float? = none ∧ f = .notNumber l.label w

/-- Why field `index` does not begin with a whole number. -/
def MissesLeadingInt (l : HeaderLine) (index : Nat) (f : Fault) : Prop :=
  l.MissesField index f ∨
    ∃ w, l.fields[index]? = some w ∧ w.takeDigits.int32? = none ∧
      f = .noLeadingInteger l.label w

/-- Why fields 2 and 3 are not a time.  A line that lacks both is said to lack the later one. -/
def MissesTime (l : HeaderLine) (f : Fault) : Prop :=
  l.MissesField 3 f ∨
    ∃ date clock, l.fields[2]? = some date ∧ l.fields[3]? = some clock ∧
      WallClock.read? (date ++ " " ++ clock) = none ∧
      f = .notTimestamp l.label (date ++ " " ++ clock)

theorem field_eq_ok_iff {l : HeaderLine} {index : Nat} {w : Bytes} :
    l.field index = .ok w ↔ l.fields[index]? = some w := by
  unfold field
  cases h : l.fields[index]? with
  | none => simp
  | some w' => simp

theorem field_eq_error_iff {l : HeaderLine} {index : Nat} {f : Fault} :
    l.field index = .error f ↔ l.MissesField index f := by
  unfold field MissesField
  cases h : l.fields[index]? with
  | none =>
    have hlen := List.getElem?_eq_none_iff.1 h
    constructor
    · intro hf
      cases hf
      exact ⟨hlen, rfl⟩
    · intro ⟨_, hf⟩
      rw [hf]
  | some w =>
    obtain ⟨hlen, -⟩ := List.getElem?_eq_some_iff.1 h
    constructor
    · intro hf
      cases hf
    · intro ⟨hlen', _⟩
      omega

theorem number_eq_ok_iff {l : HeaderLine} {index : Nat} {x : Float} :
    l.number index = .ok x ↔ ∃ w, l.fields[index]? = some w ∧ w.float? = some x := by
  unfold number
  simp only [bind_eq_ok_iff, field_eq_ok_iff]
  refine exists_congr fun w => and_congr_right fun _ => ?_
  cases w.float? with
  | none => simp
  | some y => simp

theorem number_eq_error_iff {l : HeaderLine} {index : Nat} {f : Fault} :
    l.number index = .error f ↔ l.MissesNumber index f := by
  unfold number MissesNumber
  simp only [bind_eq_error_iff, field_eq_error_iff, field_eq_ok_iff]
  refine or_congr_right (exists_congr fun w => and_congr_right fun _ => ?_)
  cases w.float? with
  | none => simp [eq_comm]
  | some y => simp

theorem leadingInt_eq_ok_iff {l : HeaderLine} {index : Nat} {n : Int} :
    l.leadingInt index = .ok n ↔
      ∃ w, l.fields[index]? = some w ∧ w.takeDigits.int32? = some n := by
  unfold leadingInt
  simp only [bind_eq_ok_iff, field_eq_ok_iff]
  refine exists_congr fun w => and_congr_right fun _ => ?_
  cases w.takeDigits.int32? with
  | none => simp
  | some m => simp

theorem leadingInt_eq_error_iff {l : HeaderLine} {index : Nat} {f : Fault} :
    l.leadingInt index = .error f ↔ l.MissesLeadingInt index f := by
  unfold leadingInt MissesLeadingInt
  simp only [bind_eq_error_iff, field_eq_error_iff, field_eq_ok_iff]
  refine or_congr_right (exists_congr fun w => and_congr_right fun _ => ?_)
  cases w.takeDigits.int32? with
  | none => simp [eq_comm]
  | some m => simp

theorem time_eq_ok_iff {l : HeaderLine} {t : Instant} :
    l.time = .ok t ↔
      ∃ date clock c, l.fields[2]? = some date ∧ l.fields[3]? = some clock ∧
        WallClock.read? (date ++ " " ++ clock) = some c ∧ t = c.toInstant := by
  unfold time
  simp only [bind_eq_ok_iff, field_eq_ok_iff]
  constructor
  · intro ⟨clock, hclock, date, hdate, h⟩
    cases hc : WallClock.read? (date ++ " " ++ clock) with
    | none =>
      rw [hc] at h
      cases h
    | some c =>
      rw [hc] at h
      cases h
      exact ⟨date, clock, c, hdate, hclock, hc, rfl⟩
  · intro ⟨date, clock, c, hdate, hclock, hc, ht⟩
    refine ⟨clock, hclock, date, hdate, ?_⟩
    rw [hc, ht]

theorem time_eq_error_iff {l : HeaderLine} {f : Fault} :
    l.time = .error f ↔ l.MissesTime f := by
  unfold time MissesTime
  simp only [bind_eq_error_iff, field_eq_error_iff, field_eq_ok_iff]
  refine or_congr_right ⟨?_, ?_⟩
  · intro ⟨clock, hclock, h⟩
    rcases h with ⟨hlen, -⟩ | ⟨date, hdate, h⟩
    · -- A line with a field 3 has a field 2.
      obtain ⟨hlen', -⟩ := List.getElem?_eq_some_iff.1 hclock
      omega
    · cases hc : WallClock.read? (date ++ " " ++ clock) with
      | none =>
        rw [hc] at h
        cases h
        exact ⟨date, clock, hdate, hclock, hc, rfl⟩
      | some c =>
        rw [hc] at h
        cases h
  · intro ⟨date, clock, hdate, hclock, hc, hf⟩
    refine ⟨clock, hclock, Or.inr ⟨date, hdate, ?_⟩⟩
    rw [hc, hf]

theorem comment_eq (l : HeaderLine) :
    l.comment =
      if l.fields.length ≤ 1 then none else some (Bytes.join " " (l.fields.drop 1)) := by
  unfold comment
  cases h : l.fields.drop 1 with
  | nil => simp [List.drop_eq_nil_iff.1 h]
  | cons field rest =>
    have hlen : ¬l.fields.length ≤ 1 := fun hle => by simp [List.drop_eq_nil_of_le hle] at h
    simp [hlen]

end HeaderLine

namespace HeaderItem

/-! ## Rules -/

/-- Word `index` writes the number `x`. -/
def NumberAt (words : List Bytes) (index : Nat) (x : Float) : Prop :=
  ∃ w, words[index]? = some w ∧ w.float? = some x

/-- Words 2 and 3 write the time `t`, as if it were UTC. -/
def TimeAt (words : List Bytes) (t : Instant) : Prop :=
  ∃ date clock c, words[2]? = some date ∧ words[3]? = some clock ∧
    WallClock.read? (date ++ " " ++ clock) = some c ∧ t = c.toInstant

/-- The words of the item's line write its part of `h`. -/
def Writes (o : ReadOptions) (item : HeaderItem) (words : List Bytes) (h : Header) : Prop :=
  match item with
  | originTime => ∃ t, TimeAt words t ∧ h.event.origin = t.ofJapanTime
  | eventLatitude => NumberAt words 1 h.event.latitude
  | eventLongitude => NumberAt words 1 h.event.longitude
  | eventDepth => NumberAt words 2 h.event.depthKm
  | magnitude => NumberAt words 1 h.event.magnitude
  | stationCode =>
    ∃ w, words[2]? = some w ∧
      StationId.read o.splitStation w = .ok ⟨h.station.code, h.station.location⟩
  | stationLatitude => NumberAt words 2 h.station.latitude
  | stationLongitude => NumberAt words 2 h.station.longitude
  | stationHeight => NumberAt words 2 h.station.elevationM
  | recordTime => ∃ t, TimeAt words t ∧ h.recording.start = t.beforeTrigger.ofJapanTime
  | samplingRate => ∃ w, words[2]? = some w ∧ w.takeDigits.int32? = some h.recording.rate
  | duration => NumberAt words 2 h.recording.durationS
  | direction => ∃ w, words[1]? = some w ∧ h.recording.channel = channelCode w
  | scaleFactor => ∃ w, words[2]? = some w ∧ calibration w = .ok h.recording.calibration
  | peakAcceleration => NumberAt words 3 h.recording.peak
  | lastCorrection => ∃ t, TimeAt words t ∧ h.recording.lastCorrection = t.ofJapanTime
  | memo =>
    h.recording.comment =
      if words.length ≤ 1 then none else some (Bytes.join " " (words.drop 1))

/-- Why the words of the item's line write nothing.  A memo line always writes its item. -/
def Refuses (o : ReadOptions) (item : HeaderItem) (l : HeaderLine) (f : Fault) : Prop :=
  match item with
  | originTime | recordTime | lastCorrection => l.MissesTime f
  | eventLatitude | eventLongitude | magnitude => l.MissesNumber 1 f
  | eventDepth | stationLatitude | stationLongitude | stationHeight | duration =>
    l.MissesNumber 2 f
  | peakAcceleration => l.MissesNumber 3 f
  | samplingRate => l.MissesLeadingInt 2 f
  | stationCode =>
    l.MissesField 2 f ∨
      ∃ w, l.fields[2]? = some w ∧
        StationId.maxLength < (StationId.cut o.splitStation w).code.length ∧
        f = .stationTooLong (StationId.cut o.splitStation w).code
  | direction => l.MissesField 1 f
  | scaleFactor => l.MissesField 2 f ∨ ∃ w, l.fields[2]? = some w ∧ calibration w = .error f
  | memo => False

/-- A rule that reads something, and puts a value computed from it where `get` looks. -/
theorem put_eq_ok_iff {α β : Type} {rule : Except Fault α} (value : α → β)
    (put : β → Header → Header) (get : Header → β) (hget : ∀ b, get (put b {}) = b)
    {set : Header → Header} :
    (rule >>= fun a => .ok (put (value a))) = .ok set ↔
      ∃ source, (∃ a, rule = .ok a ∧ get source = value a) ∧ set = put (get source) := by
  rw [bind_eq_ok_iff]
  constructor
  · intro ⟨a, ha, hset⟩
    cases hset
    exact ⟨put (value a) {}, ⟨a, ha, hget _⟩, by rw [hget]⟩
  · intro ⟨source, ⟨a, ha, hsource⟩, hset⟩
    exact ⟨a, ha, by rw [hset, hsource]⟩

theorem put_self_eq_ok_iff {α : Type} {rule : Except Fault α} (put : α → Header → Header)
    (get : Header → α) (hget : ∀ a, get (put a {}) = a) {set : Header → Header} :
    (rule >>= fun a => .ok (put a)) = .ok set ↔
      ∃ source, rule = .ok (get source) ∧ set = put (get source) := by
  refine (put_eq_ok_iff id put get hget).trans (exists_congr fun source => and_congr_left' ?_)
  constructor
  · intro ⟨a, ha, hsource⟩
    rw [ha, hsource]
    rfl
  · intro h
    exact ⟨get source, h, rfl⟩

theorem number_put_eq_ok_iff {l : HeaderLine} {index : Nat} (put : Float → Header → Header)
    (get : Header → Float) (hget : ∀ x, get (put x {}) = x) {set : Header → Header} :
    (l.number index >>= fun x => .ok (put x)) = .ok set ↔
      ∃ source, NumberAt l.fields index (get source) ∧ set = put (get source) := by
  refine (put_self_eq_ok_iff put get hget).trans ?_
  simp only [HeaderLine.number_eq_ok_iff, NumberAt]

theorem time_put_eq_ok_iff {l : HeaderLine} (value : Instant → Instant)
    (put : Instant → Header → Header) (get : Header → Instant) (hget : ∀ t, get (put t {}) = t)
    {set : Header → Header} :
    (l.time >>= fun t => .ok (put (value t))) = .ok set ↔
      ∃ source, (∃ t, TimeAt l.fields t ∧ get source = value t) ∧ set = put (get source) := by
  refine (put_eq_ok_iff value put get hget).trans ?_
  simp only [HeaderLine.time_eq_ok_iff, TimeAt]

/-- A line that an item accepts changes the item's part of a header, to what its words write. -/
theorem fill_eq_ok_iff {o : ReadOptions} {item : HeaderItem} {l : HeaderLine}
    {set : Header → Header} :
    item.fill o l = .ok set ↔
      ∃ source, item.Writes o l.fields source ∧ set = item.transfer source := by
  cases item with
  | originTime =>
    exact time_put_eq_ok_iff (·.ofJapanTime) (fun t h => { h with event.origin := t })
      (·.event.origin) fun _ => rfl
  | recordTime =>
    exact time_put_eq_ok_iff (·.beforeTrigger.ofJapanTime)
      (fun t h => { h with recording.start := t }) (·.recording.start) fun _ => rfl
  | lastCorrection =>
    exact time_put_eq_ok_iff (·.ofJapanTime) (fun t h => { h with recording.lastCorrection := t })
      (·.recording.lastCorrection) fun _ => rfl
  | eventLatitude => exact number_put_eq_ok_iff _ (·.event.latitude) fun _ => rfl
  | eventLongitude => exact number_put_eq_ok_iff _ (·.event.longitude) fun _ => rfl
  | eventDepth => exact number_put_eq_ok_iff _ (·.event.depthKm) fun _ => rfl
  | magnitude => exact number_put_eq_ok_iff _ (·.event.magnitude) fun _ => rfl
  | stationLatitude => exact number_put_eq_ok_iff _ (·.station.latitude) fun _ => rfl
  | stationLongitude => exact number_put_eq_ok_iff _ (·.station.longitude) fun _ => rfl
  | stationHeight => exact number_put_eq_ok_iff _ (·.station.elevationM) fun _ => rfl
  | duration => exact number_put_eq_ok_iff _ (·.recording.durationS) fun _ => rfl
  | peakAcceleration => exact number_put_eq_ok_iff _ (·.recording.peak) fun _ => rfl
  | samplingRate =>
    refine (put_self_eq_ok_iff (fun n h => { h with recording.rate := n }) (·.recording.rate)
      fun _ => rfl).trans ?_
    simp only [HeaderLine.leadingInt_eq_ok_iff]
    rfl
  | direction =>
    refine (put_eq_ok_iff channelCode (fun c h => { h with recording.channel := c })
      (·.recording.channel) fun _ => rfl).trans ?_
    simp only [HeaderLine.field_eq_ok_iff]
    rfl
  | stationCode =>
    rw [fill, ← bind_assoc]
    refine (put_self_eq_ok_iff
      (fun n h => { h with station.code := n.code, station.location := n.location })
      (fun h => StationId.mk h.station.code h.station.location) fun _ => rfl).trans ?_
    simp only [bind_eq_ok_iff, HeaderLine.field_eq_ok_iff]
    rfl
  | scaleFactor =>
    rw [fill, ← bind_assoc]
    refine (put_self_eq_ok_iff (fun x h => { h with recording.calibration := x })
      (·.recording.calibration) fun _ => rfl).trans ?_
    simp only [bind_eq_ok_iff, HeaderLine.field_eq_ok_iff]
    rfl
  | memo =>
    simp only [fill, Writes, Except.ok.injEq, ← HeaderLine.comment_eq]
    constructor
    · intro hset
      exact ⟨{ recording := { comment := l.comment } }, rfl, hset.symm⟩
    · intro h
      obtain ⟨source, hsource, rfl⟩ := h
      rw [← hsource]
      rfl

theorem put_eq_error_iff {α : Type} {rule : Except Fault α} {put : α → Header → Header}
    {f : Fault} : (rule >>= fun a => .ok (put a)) = .error f ↔ rule = .error f := by
  rw [bind_eq_error_iff]
  simp

theorem number_put_eq_error_iff {l : HeaderLine} {index : Nat} {put : Float → Header → Header}
    {f : Fault} : (l.number index >>= fun x => .ok (put x)) = .error f ↔ l.MissesNumber index f :=
  put_eq_error_iff.trans HeaderLine.number_eq_error_iff

theorem time_put_eq_error_iff {l : HeaderLine} {put : Instant → Header → Header} {f : Fault} :
    (l.time >>= fun t => .ok (put t)) = .error f ↔ l.MissesTime f :=
  put_eq_error_iff.trans HeaderLine.time_eq_error_iff

/-- The fault of a line that an item does not accept is the one of the item's own rule. -/
theorem fill_eq_error_iff {o : ReadOptions} {item : HeaderItem} {l : HeaderLine} {f : Fault} :
    item.fill o l = .error f ↔ item.Refuses o l f := by
  cases item with
  | originTime | recordTime | lastCorrection => exact time_put_eq_error_iff
  | eventLatitude | eventLongitude | eventDepth | magnitude | stationLatitude | stationLongitude
  | stationHeight | duration | peakAcceleration => exact number_put_eq_error_iff
  | samplingRate => exact put_eq_error_iff.trans HeaderLine.leadingInt_eq_error_iff
  | direction => exact put_eq_error_iff.trans HeaderLine.field_eq_error_iff
  | stationCode =>
    rw [fill, ← bind_assoc]
    refine put_eq_error_iff.trans ?_
    simp only [bind_eq_error_iff, HeaderLine.field_eq_error_iff, HeaderLine.field_eq_ok_iff,
      StationId.read_eq_error_iff]
    rfl
  | scaleFactor =>
    rw [fill, ← bind_assoc]
    refine put_eq_error_iff.trans ?_
    simp only [bind_eq_error_iff, HeaderLine.field_eq_error_iff, HeaderLine.field_eq_ok_iff]
    rfl
  | memo => simp [fill, Refuses]

theorem kind_of_calibration {text : Bytes} {f : Fault} (hf : calibration text = .error f) :
    f.kind = .calibration := by
  unfold calibration at hf
  dsimp only at hf
  repeat' split at hf
  all_goals cases hf
  all_goals rfl

/-- The kinds of fault that the rule of an item can have. -/
def ruleKinds : List FaultKind := [.missingField, .number, .timestamp, .calibration, .stationName]

theorem kind_of_missesField {l : HeaderLine} {index : Nat} {f : Fault}
    (hf : l.MissesField index f) : f.kind ∈ ruleKinds := by
  rw [hf.2]
  simp [Fault.kind, ruleKinds]

theorem kind_of_missesNumber {l : HeaderLine} {index : Nat} {f : Fault}
    (hf : l.MissesNumber index f) : f.kind ∈ ruleKinds := by
  rcases hf with hf | ⟨w, -, -, rfl⟩
  · exact kind_of_missesField hf
  · simp [Fault.kind, ruleKinds]

theorem kind_of_missesTime {l : HeaderLine} {f : Fault} (hf : l.MissesTime f) :
    f.kind ∈ ruleKinds := by
  rcases hf with hf | ⟨date, clock, -, -, -, rfl⟩
  · exact kind_of_missesField hf
  · simp [Fault.kind, ruleKinds]

theorem Refuses.kind_mem {o : ReadOptions} {item : HeaderItem} {l : HeaderLine} {f : Fault}
    (hf : item.Refuses o l f) : f.kind ∈ ruleKinds := by
  cases item with
  | originTime | recordTime | lastCorrection => exact kind_of_missesTime hf
  | eventLatitude | eventLongitude | eventDepth | magnitude | stationLatitude | stationLongitude
  | stationHeight | duration | peakAcceleration => exact kind_of_missesNumber hf
  | direction => exact kind_of_missesField hf
  | samplingRate =>
    rcases hf with hf | ⟨w, -, -, rfl⟩
    · exact kind_of_missesField hf
    · simp [Fault.kind, ruleKinds]
  | stationCode =>
    rcases hf with hf | ⟨w, -, -, rfl⟩
    · exact kind_of_missesField hf
    · simp [Fault.kind, ruleKinds]
  | scaleFactor =>
    rcases hf with hf | ⟨w, -, hf⟩
    · exact kind_of_missesField hf
    · simp [kind_of_calibration hf, ruleKinds]
  | memo => cases hf

/-- An item accepts a line or refuses it. -/
theorem writes_or_refuses (o : ReadOptions) (item : HeaderItem) (l : HeaderLine) :
    (∃ h, item.Writes o l.fields h) ∨ ∃ f, item.Refuses o l f := by
  cases hfill : item.fill o l with
  | ok set =>
    obtain ⟨h, hh, -⟩ := fill_eq_ok_iff.1 hfill
    exact Or.inl ⟨h, hh⟩
  | error f => exact Or.inr ⟨f, fill_eq_error_iff.1 hfill⟩

/-- An item does not refuse a line that it accepts. -/
theorem Refuses.not_writes {o : ReadOptions} {item : HeaderItem} {l : HeaderLine} {f : Fault}
    (hf : item.Refuses o l f) (h : Header) : ¬item.Writes o l.fields h := by
  intro hh
  have hok : item.fill o l = .ok (item.transfer h) := fill_eq_ok_iff.2 ⟨h, hh, rfl⟩
  rw [fill_eq_error_iff.2 hf] at hok
  cases hok

/-- What words write is a matter of the item's own part of a header. -/
theorem writes_transfer_iff {o : ReadOptions} {item : HeaderItem} {words : List Bytes}
    {source target : Header} :
    item.Writes o words (item.transfer source target) ↔ item.Writes o words source := by
  cases item <;> exact Iff.rfl

/-! ## Words write one value -/

theorem word_unique {α : Type} {words : List Bytes} {index : Nat} (reads : Bytes → α → Prop)
    (hreads : ∀ w x y, reads w x → reads w y → x = y) {x y : α}
    (hx : ∃ w, words[index]? = some w ∧ reads w x)
    (hy : ∃ w, words[index]? = some w ∧ reads w y) : x = y := by
  obtain ⟨w, hw, hx⟩ := hx
  obtain ⟨w', hw', hy⟩ := hy
  rw [hw, Option.some.injEq] at hw'
  subst hw'
  exact hreads w x y hx hy

theorem NumberAt.unique {words : List Bytes} {index : Nat} {x y : Float}
    (hx : NumberAt words index x) (hy : NumberAt words index y) : x = y :=
  word_unique (fun w x => w.float? = some x)
    (fun _ _ _ h h' => Option.some.inj (h.symm.trans h')) hx hy

theorem TimeAt.unique {words : List Bytes} {s t : Instant} (hs : TimeAt words s)
    (ht : TimeAt words t) : s = t := by
  obtain ⟨date, clock, c, hdate, hclock, hc, rfl⟩ := hs
  obtain ⟨date', clock', c', hdate', hclock', hc', rfl⟩ := ht
  rw [hdate, Option.some.injEq] at hdate'
  rw [hclock, Option.some.injEq] at hclock'
  rw [← hdate', ← hclock', hc, Option.some.injEq] at hc'
  rw [hc']

theorem time_value_unique {words : List Bytes} (value : Instant → Instant) {s t : Instant}
    (hs : ∃ a, TimeAt words a ∧ s = value a) (ht : ∃ a, TimeAt words a ∧ t = value a) : s = t := by
  obtain ⟨a, ha, rfl⟩ := hs
  obtain ⟨b, hb, rfl⟩ := ht
  rw [ha.unique hb]

/-- Two headers that the same words write have the item's part in common. -/
theorem Writes.transfer_eq {o : ReadOptions} {item : HeaderItem} {words : List Bytes}
    {h h' : Header} (hh : item.Writes o words h) (hh' : item.Writes o words h') :
    item.transfer h h' = h' := by
  cases item with
  | originTime =>
    exact congrArg (fun t => { h' with event.origin := t })
      (time_value_unique (·.ofJapanTime) hh hh')
  | recordTime =>
    exact congrArg (fun t => { h' with recording.start := t })
      (time_value_unique (·.beforeTrigger.ofJapanTime) hh hh')
  | lastCorrection =>
    exact congrArg (fun t => { h' with recording.lastCorrection := t })
      (time_value_unique (·.ofJapanTime) hh hh')
  | eventLatitude =>
    exact congrArg (fun x => { h' with event.latitude := x }) (NumberAt.unique hh hh')
  | eventLongitude =>
    exact congrArg (fun x => { h' with event.longitude := x }) (NumberAt.unique hh hh')
  | eventDepth => exact congrArg (fun x => { h' with event.depthKm := x }) (NumberAt.unique hh hh')
  | magnitude => exact congrArg (fun x => { h' with event.magnitude := x }) (NumberAt.unique hh hh')
  | stationLatitude =>
    exact congrArg (fun x => { h' with station.latitude := x }) (NumberAt.unique hh hh')
  | stationLongitude =>
    exact congrArg (fun x => { h' with station.longitude := x }) (NumberAt.unique hh hh')
  | stationHeight =>
    exact congrArg (fun x => { h' with station.elevationM := x }) (NumberAt.unique hh hh')
  | duration =>
    exact congrArg (fun x => { h' with recording.durationS := x }) (NumberAt.unique hh hh')
  | peakAcceleration =>
    exact congrArg (fun x => { h' with recording.peak := x }) (NumberAt.unique hh hh')
  | samplingRate =>
    have hrate : h.recording.rate = h'.recording.rate :=
      word_unique (fun w n => w.takeDigits.int32? = some n)
        (fun _ _ _ e e' => Option.some.inj (e.symm.trans e')) hh hh'
    exact congrArg (fun n => { h' with recording.rate := n }) hrate
  | scaleFactor =>
    have hscale : h.recording.calibration = h'.recording.calibration :=
      word_unique (fun w x => calibration w = .ok x)
        (fun _ _ _ e e' => Except.ok.inj (e.symm.trans e')) hh hh'
    exact congrArg (fun x => { h' with recording.calibration := x }) hscale
  | direction =>
    have hchannel : h.recording.channel = h'.recording.channel :=
      word_unique (fun w c => c = channelCode w)
        (fun _ _ _ e e' => e.trans e'.symm) hh hh'
    exact congrArg (fun c => { h' with recording.channel := c }) hchannel
  | stationCode =>
    have hname : StationId.mk h.station.code h.station.location =
        ⟨h'.station.code, h'.station.location⟩ :=
      word_unique (fun w n => StationId.read o.splitStation w = .ok n)
        (fun _ _ _ e e' => Except.ok.inj (e.symm.trans e')) hh hh'
    exact congrArg
      (fun n : StationId => { h' with station.code := n.code, station.location := n.location })
      hname
  | memo => exact congrArg (fun c => { h' with recording.comment := c }) (hh.trans hh'.symm)

end HeaderItem
end StrongMotion

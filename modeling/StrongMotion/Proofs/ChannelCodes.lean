import StrongMotion.Proofs.FieldValues
import StrongMotion.Proofs.TrimmedTexts

/-!
# Normal forms of directions

The channel code is a normal form of the directions that a header can give: it is its own code, and
the texts that are their own code are known (`channelCode_eq_self_iff`).  Two directions have one
code if they are the same text without dashes and the blanks around it, or one is the number of a
borehole channel and the other that channel (`channelCode_normal_form`).
-/

namespace StrongMotion

/-- What a record can hold as a channel. -/
structure IsChannelCode (code : Bytes) : Prop where
  dash_not_mem : dash ∉ code
  isTrimmed : code.IsTrimmed
  not_mem_boreholeNumbers : code ∉ boreholeNumbers

/-! ## The channels of a borehole -/

theorem lookup_of_mem_boreholeChannels : ∀ channel ∈ boreholeChannels,
    boreholeChannels.lookup channel.1 = some channel.2 := by
  decide +kernel

theorem boreholeChannels_inj : ∀ channel ∈ boreholeChannels, ∀ channel' ∈ boreholeChannels,
    channel.2 = channel'.2 → channel.1 = channel'.1 := by
  decide +kernel

theorem lookup_boreholeChannels_eq_none_iff {s : Bytes} :
    boreholeChannels.lookup s = none ↔ s ∉ boreholeNumbers := by
  constructor
  · intro hlookup hmem
    obtain ⟨channel, hchannel, rfl⟩ := List.mem_map.1 hmem
    rw [lookup_of_mem_boreholeChannels channel hchannel] at hlookup
    cases hlookup
  · intro hnot
    cases hlookup : boreholeChannels.lookup s with
    | none => rfl
    | some code =>
      exact absurd (List.mem_map.2 ⟨_, mem_of_lookup_boreholeChannels hlookup, rfl⟩) hnot

/-- The channel that a number stands for, and any other text as it is. -/
def boreholeChannel (s : Bytes) : Bytes := (boreholeChannels.lookup s).getD s

theorem boreholeChannel_of_mem {s code : Bytes} (h : (s, code) ∈ boreholeChannels) :
    boreholeChannel s = code := by
  rw [boreholeChannel, lookup_of_mem_boreholeChannels _ h, Option.getD_some]

theorem boreholeChannel_of_not_mem {s : Bytes} (h : s ∉ boreholeNumbers) :
    boreholeChannel s = s := by
  rw [boreholeChannel, lookup_boreholeChannels_eq_none_iff.2 h, Option.getD_none]

theorem boreholeChannel_cases (s : Bytes) :
    (s, boreholeChannel s) ∈ boreholeChannels ∨ s ∉ boreholeNumbers ∧ boreholeChannel s = s := by
  by_cases hmem : s ∈ boreholeNumbers
  · obtain ⟨⟨number, code⟩, hchannel, rfl⟩ := List.mem_map.1 hmem
    rw [boreholeChannel_of_mem hchannel]
    exact Or.inl hchannel
  · exact Or.inr ⟨hmem, boreholeChannel_of_not_mem hmem⟩

/-- A number and its channel are the only texts taken for each other. -/
theorem boreholeChannel_eq_iff {s t : Bytes} :
    boreholeChannel s = boreholeChannel t ↔
      s = t ∨ (s, t) ∈ boreholeChannels ∨ (t, s) ∈ boreholeChannels := by
  have hself : ∀ {s t : Bytes}, (s, t) ∈ boreholeChannels → boreholeChannel t = t := fun h =>
    boreholeChannel_of_not_mem (boreholeChannels_sound _ h).2.2
  constructor
  · intro heq
    rcases boreholeChannel_cases s with hs | ⟨-, hs⟩ <;>
      rcases boreholeChannel_cases t with ht | ⟨-, ht⟩
    · exact Or.inl (boreholeChannels_inj _ hs _ ht heq)
    · rw [heq, ht] at hs
      exact Or.inr (Or.inl hs)
    · rw [← heq, hs] at ht
      exact Or.inr (Or.inr ht)
    · exact Or.inl (hs.symm.trans (heq.trans ht))
  · rintro (rfl | h | h)
    · rfl
    · rw [boreholeChannel_of_mem h, hself h]
    · rw [boreholeChannel_of_mem h, hself h]

/-! ## Codes -/

/-- The code of a direction is that of the text that its dashes and blanks leave. -/
theorem channelCode_of_trimsTo {direction s : Bytes}
    (h : Bytes.TrimsTo (direction.filter (· ≠ dash)) s) :
    channelCode direction = boreholeChannel s := by
  rw [← h.trim_eq]
  rfl

theorem isChannelCode_channelCode (direction : Bytes) : IsChannelCode (channelCode direction) where
  dash_not_mem := dash_not_mem_channelCode direction
  isTrimmed := by
    rcases channelCode_cases direction with ⟨number, hmem⟩ | ⟨heq, -⟩
    · exact Bytes.isTrimmed_of_forall (boreholeChannels_sound _ hmem).2.1
    · rw [heq]
      exact (Bytes.trimsTo_trim _).isTrimmed
  not_mem_boreholeNumbers := channelCode_not_mem_boreholeNumbers direction

theorem IsChannelCode.channelCode_eq {code : Bytes} (h : IsChannelCode code) :
    channelCode code = code := by
  have hkept : code.filter (· ≠ dash) = code := by
    refine List.filter_eq_self.2 fun b hb => decide_eq_true ?_
    rintro rfl
    exact h.dash_not_mem hb
  have htrims : Bytes.TrimsTo (code.filter (· ≠ dash)) code := by
    rw [hkept, Bytes.trimsTo_iff, Bytes.trim_eq_self_iff.2 h.isTrimmed]
  rw [channelCode_of_trimsTo htrims, boreholeChannel_of_not_mem h.not_mem_boreholeNumbers]

theorem channelCode_eq_self_iff {code : Bytes} : channelCode code = code ↔ IsChannelCode code :=
  ⟨fun h => h ▸ isChannelCode_channelCode code, IsChannelCode.channelCode_eq⟩

/-- The code of a direction is its own code.  It holds no dash, is trimmed and is no number of a
borehole channel, and a direction that is like this already is its code.  Directions have the same
code exactly if their dashes and the blanks then around them leave the same text, or a number and
its channel.  What the blanks leave is found by searching from both ends. -/
theorem channelCode_normal_form (direction : Bytes) :
    channelCode (channelCode direction) = channelCode direction ∧
    ('-'.toUInt8 ∉ channelCode direction ∧
      (∀ b, (channelCode direction).head? = some b → Byte.isBlank b = false) ∧
      (∀ b, (channelCode direction).getLast? = some b → Byte.isBlank b = false) ∧
      channelCode direction ∉ (["1", "2", "3", "4", "5", "6"] : List Bytes)) ∧
    (channelCode direction = direction ↔ IsChannelCode direction) ∧
    (∀ s t, Bytes.TrimsTo s t ↔ t = Bytes.trimByPlaces s) ∧
    ∀ direction' s t, Bytes.TrimsTo (direction.filter (· ≠ '-'.toUInt8)) s →
      Bytes.TrimsTo (direction'.filter (· ≠ '-'.toUInt8)) t →
      (channelCode direction = channelCode direction' ↔
        s = t ∨ (s, t) ∈ boreholeChannels ∨ (t, s) ∈ boreholeChannels) := by
  have hcode := isChannelCode_channelCode direction
  refine ⟨hcode.channelCode_eq, ⟨hcode.dash_not_mem, hcode.isTrimmed.head, hcode.isTrimmed.last,
    hcode.not_mem_boreholeNumbers⟩, channelCode_eq_self_iff, fun s t => ?_,
    fun direction' s t hs ht => ?_⟩
  · rw [Bytes.trimByPlaces_eq, Bytes.trimsTo_iff]
  · rw [channelCode_of_trimsTo hs, channelCode_of_trimsTo ht, boreholeChannel_eq_iff]

/-- Blanks that come to the ends when the dashes go, around a number and around its channel. -/
theorem channelCode_normal_form_hiddenBlanks :
    Bytes.TrimsTo (("- 3 -" : Bytes).filter (· ≠ '-'.toUInt8)) "3" ∧
      Bytes.TrimsTo (("-\tU-D1" : Bytes).filter (· ≠ '-'.toUInt8)) "UD1" ∧
      channelCode "- 3 -" = channelCode "-\tU-D1" := by
  have hnumber : Bytes.TrimsTo (("- 3 -" : Bytes).filter (· ≠ '-'.toUInt8)) "3" :=
    Bytes.trimsTo_iff.2 (by decide +kernel)
  have hchannel : Bytes.TrimsTo (("-\tU-D1" : Bytes).filter (· ≠ '-'.toUInt8)) "UD1" :=
    Bytes.trimsTo_iff.2 (by decide +kernel)
  obtain ⟨-, -, -, -, hsame⟩ := channelCode_normal_form "- 3 -"
  exact ⟨hnumber, hchannel, (hsame _ _ _ hnumber hchannel).2 (Or.inr (Or.inl (by decide +kernel)))⟩

end StrongMotion

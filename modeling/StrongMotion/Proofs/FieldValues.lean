import Mathlib.Data.List.Chain
import StrongMotion.Header.Items
import StrongMotion.Proofs.Words

/-!
# The values of header fields

A field is a word: it is not empty and holds no blank.  What the rules for station codes, channels
and comments make of such words is therefore limited, whatever the words are.
-/

namespace StrongMotion

theorem Bytes.isWord_of_getElem? {s w : Bytes} {index : Nat} (hw : s.words[index]? = some w) :
    w.IsWord :=
  isWord_of_mem_words (List.mem_of_getElem? hw)

/-! ## Stations -/

namespace StationId

/-- The last two bytes of a long name are the location, when names are split. -/
structure Names (split : Bool) (text : Bytes) (name : StationId) : Prop where
  append_eq : name.code ++ name.location = text
  length_location : name.location.length = if split ∧ maxUnsplit < text.length then 2 else 0
  length_code_le : name.code.length ≤ maxLength
  code_ne_nil : name.code ≠ []

theorem length_location_cut (split : Bool) (text : Bytes) :
    (cut split text).location.length = if split ∧ maxUnsplit < text.length then 2 else 0 := by
  unfold cut
  split
  · next h =>
    have hlong : 5 < text.length := h.2
    show (text.drop (text.length - 2)).length = 2
    rw [List.length_drop]
    omega
  · rfl

theorem names_of_read {split : Bool} {text : Bytes} {name : StationId} (htext : text ≠ [])
    (hread : read split text = .ok name) : Names split text name := by
  unfold read at hread
  dsimp only at hread
  split at hread
  · cases hread
  · next hlength =>
    obtain rfl := Except.ok.inj hread
    refine ⟨cut_append split text, length_location_cut split text, Nat.le_of_not_lt hlength, ?_⟩
    intro hcode
    -- A location of two bytes is cut from more than five, so something is left before it.
    have happend := congrArg List.length (cut_append split text)
    have hlocation := length_location_cut split text
    have hpos := List.length_pos_iff.2 htext
    have hunsplit : maxUnsplit = 5 := rfl
    rw [hcode, List.nil_append] at happend
    split at hlocation <;> omega

end StationId

/-! ## Channels -/

/-- The numbers by which a header gives the channels of a borehole. -/
def boreholeNumbers : List Bytes := boreholeChannels.map Prod.fst

def dash : UInt8 := '-'.toUInt8

theorem mem_of_lookup_boreholeChannels {number code : Bytes}
    (h : boreholeChannels.lookup number = some code) : (number, code) ∈ boreholeChannels := by
  obtain ⟨before, after, heq, -⟩ := List.lookup_eq_some_iff.1 h
  rw [heq]
  simp

theorem boreholeChannels_sound : ∀ channel ∈ boreholeChannels,
    dash ∉ channel.2 ∧ (∀ b ∈ channel.2, Byte.isBlank b = false) ∧
      channel.2 ∉ boreholeNumbers := by
  decide +kernel

/-- A channel is a channel of a borehole, or the direction without its dashes and with the blanks
around it trimmed, which is then no number of a borehole channel. -/
theorem channelCode_cases (direction : Bytes) :
    (∃ number, (number, channelCode direction) ∈ boreholeChannels) ∨
      channelCode direction = Bytes.trim (direction.filter (· ≠ dash)) ∧
        channelCode direction ∉ boreholeNumbers := by
  unfold channelCode
  dsimp only
  cases hlookup : boreholeChannels.lookup (Bytes.trim (direction.filter (· ≠ '-'.toUInt8))) with
  | some code => exact Or.inl ⟨_, mem_of_lookup_boreholeChannels hlookup⟩
  | none =>
    refine Or.inr ⟨rfl, fun hmem => ?_⟩
    obtain ⟨channel, hchannel, heq⟩ := List.mem_map.1 hmem
    have hne := List.lookup_eq_none_iff.1 hlookup channel hchannel
    rw [heq] at hne
    simp at hne

theorem Bytes.mem_of_mem_trim {s : Bytes} {b : UInt8} (hb : b ∈ s.trim) : b ∈ s := by
  unfold trim dropEndWhile at hb
  rw [List.mem_reverse] at hb
  have hb' := List.mem_reverse.1 ((List.dropWhile_suffix _).subset hb)
  exact (List.dropWhile_suffix _).subset hb'

theorem dash_not_mem_channelCode (direction : Bytes) : dash ∉ channelCode direction := by
  rcases channelCode_cases direction with ⟨number, hmem⟩ | ⟨heq, -⟩
  · exact (boreholeChannels_sound _ hmem).1
  · rw [heq]
    intro hdash
    have hmem := Bytes.mem_of_mem_trim hdash
    simp at hmem

theorem channelCode_not_mem_boreholeNumbers (direction : Bytes) :
    channelCode direction ∉ boreholeNumbers := by
  rcases channelCode_cases direction with ⟨number, hmem⟩ | ⟨-, hnot⟩
  · exact (boreholeChannels_sound _ hmem).2.2
  · exact hnot

theorem isBlank_of_mem_channelCode {direction : Bytes} (hdirection : direction.IsWord) :
    ∀ b ∈ channelCode direction, Byte.isBlank b = false := by
  rcases channelCode_cases direction with ⟨number, hmem⟩ | ⟨heq, -⟩
  · exact (boreholeChannels_sound _ hmem).2.1
  · rw [heq]
    intro b hb
    have hmem := List.mem_of_mem_filter (Bytes.mem_of_mem_trim hb)
    exact hdirection.isBlank_of_mem b hmem

/-! ## Comments -/

/-- Words with one space between neighbours, and no other blanks. -/
structure Bytes.IsSpaced (s : Bytes) : Prop where
  ne_nil : s ≠ []
  head : ∀ b, s.head? = some b → Byte.isBlank b = false
  last : ∀ b, s.getLast? = some b → Byte.isBlank b = false
  single : s.IsChain fun a b => ¬(Byte.isBlank a = true ∧ Byte.isBlank b = true)
  space : ∀ b ∈ s, Byte.isBlank b = true → b = ' '.toUInt8

theorem Bytes.IsWord.isSpaced {w : Bytes} (hw : w.IsWord) : w.IsSpaced where
  ne_nil := hw.ne_nil
  head b hb := hw.isBlank_of_mem b (List.mem_of_mem_head? hb)
  last b hb := hw.isBlank_of_mem b (List.mem_of_getLast? hb)
  single := by
    refine List.isChain_iff_forall_rel_of_append_cons_cons.2 fun a b before after heq => ?_
    have ha := hw.isBlank_of_mem a (by simp [heq])
    simp [ha]
  space b hb hblank := by
    rw [hw.isBlank_of_mem b hb] at hblank
    cases hblank

theorem Bytes.IsSpaced.word_space_append {w s : Bytes} (hw : w.IsWord) (hs : s.IsSpaced) :
    (w ++ ' '.toUInt8 :: s).IsSpaced where
  ne_nil := by simp
  head b hb := by
    rw [List.head?_append_of_ne_nil _ hw.ne_nil] at hb
    exact hw.isSpaced.head b hb
  last b hb := by
    rw [List.getLast?_append, List.getLast?_cons, Option.some_or, Option.some.injEq] at hb
    rw [List.getLast?_eq_some_getLast hs.ne_nil, Option.getD_some] at hb
    exact hs.last b (by rw [List.getLast?_eq_some_getLast hs.ne_nil, hb])
  single := by
    have hbehind : (' '.toUInt8 :: s).IsChain
        fun a b => ¬(Byte.isBlank a = true ∧ Byte.isBlank b = true) := by
      refine List.isChain_cons.2 ⟨fun b hb => ?_, hs.single⟩
      simp [hs.head b hb]
    refine hw.isSpaced.single.append hbehind fun a ha b _ => ?_
    simp [hw.isSpaced.last a ha]
  space b hb hblank := by
    rcases List.mem_append.1 hb with hb | hb
    · exact hw.isSpaced.space b hb hblank
    · rcases List.mem_cons.1 hb with rfl | hb
      · rfl
      · exact hs.space b hb hblank

theorem Bytes.isSpaced_join {words : List Bytes} (hne : words ≠ [])
    (hwords : ∀ w ∈ words, w.IsWord) : (Bytes.join " " words).IsSpaced := by
  induction words with
  | nil => exact absurd rfl hne
  | cons w rest ih =>
    obtain ⟨hw, hrest⟩ := List.forall_mem_cons.1 hwords
    cases rest with
    | nil =>
      rw [join_singleton]
      exact hw.isSpaced
    | cons w' rest =>
      have hjoin : Bytes.join " " (w :: w' :: rest) =
          w ++ ' '.toUInt8 :: Bytes.join " " (w' :: rest) := by
        rw [join_cons_cons, List.append_assoc]
        rfl
      rw [hjoin]
      exact (ih (List.cons_ne_nil _ _) hrest).word_space_append hw

end StrongMotion

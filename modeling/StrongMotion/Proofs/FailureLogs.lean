import Mathlib.Data.List.DropRight
import StrongMotion.FailureLog

/-!
# What failure logs say

A log is told messages, some with their source, and may be cleared.  Whatever the calls, it says the
messages that came since it was last cleared, with semicolons between them, and how many they are.
This holds also of a log that keeps the text and the number in place of the messages
(`FailureLog.says_messages_since_clear`).
-/

namespace StrongMotion

/-! ## Joined texts -/

namespace Bytes

variable {separator : Bytes} {xs ys : List Bytes}

theorem join_cons {rest : List Bytes} (hrest : rest ≠ []) (s : Bytes) :
    join separator (s :: rest) = s ++ separator ++ join separator rest := by
  obtain ⟨s', rest, rfl⟩ := List.exists_cons_of_ne_nil hrest
  exact join_cons_cons separator s s' rest

theorem join_append (hxs : xs ≠ []) (hys : ys ≠ []) :
    join separator (xs ++ ys) = join separator xs ++ separator ++ join separator ys := by
  induction xs with
  | nil => exact absurd rfl hxs
  | cons s rest ih =>
    by_cases hrest : rest = []
    · rw [hrest, List.singleton_append, join_cons hys, join_singleton]
    · have happend : rest ++ ys ≠ [] := List.append_ne_nil_of_left_ne_nil hrest _
      rw [List.cons_append, join_cons happend, ih hrest, join_cons hrest]
      simp only [List.append_assoc]

theorem join_eq_nil_iff (hxs : ∀ s ∈ xs, s ≠ []) : join separator xs = [] ↔ xs = [] := by
  cases xs with
  | nil => exact iff_of_true rfl rfl
  | cons s rest =>
    have hs := (List.forall_mem_cons.1 hxs).1
    refine iff_of_false ?_ (List.cons_ne_nil _ _)
    by_cases hrest : rest = []
    · rw [hrest, join_singleton]
      exact hs
    · rw [join_cons hrest]
      simp [hs]

theorem length_le_length_join (hxs : ∀ s ∈ xs, s ≠ []) :
    xs.length ≤ (join separator xs).length := by
  induction xs with
  | nil => exact Nat.zero_le _
  | cons s rest ih =>
    obtain ⟨hs, hrest⟩ := List.forall_mem_cons.1 hxs
    have hpos := List.length_pos_iff.2 hs
    by_cases hnil : rest = []
    · rw [hnil, join_singleton]
      exact hpos
    · have hlength := ih hrest
      rw [join_cons hnil, List.length_append, List.length_append, List.length_cons]
      omega

/-- Two lists of texts are joined by joining what becomes of each, if anything does. -/
theorem join_append_eq_join (hxs : ∀ s ∈ xs, s ≠ []) (hys : ∀ s ∈ ys, s ≠ []) :
    join separator (xs ++ ys) =
      join separator ([join separator xs, join separator ys].filter (· ≠ [])) := by
  have hx : join separator xs = [] ↔ xs = [] := join_eq_nil_iff hxs
  have hy : join separator ys = [] ↔ ys = [] := join_eq_nil_iff hys
  by_cases hxnil : xs = []
  · by_cases hynil : ys = []
    · rw [hxnil, hynil]
      rfl
    · have hkept : [join separator xs, join separator ys].filter (· ≠ []) =
          [join separator ys] := by simp [hx.2 hxnil, mt hy.1 hynil]
      rw [hkept, join_singleton, hxnil, List.nil_append]
  · by_cases hynil : ys = []
    · have hkept : [join separator xs, join separator ys].filter (· ≠ []) =
          [join separator xs] := by simp [hy.2 hynil, mt hx.1 hxnil]
      rw [hkept, join_singleton, hynil, List.append_nil]
    · have hkept : [join separator xs, join separator ys].filter (· ≠ []) =
          [join separator xs, join separator ys] := by simp [mt hx.1 hxnil, mt hy.1 hynil]
      rw [hkept, join_append hxnil hynil, join_cons (List.cons_ne_nil _ _), join_singleton]

end Bytes

/-! ## Calls -/

/-- What a log can be asked to do. -/
inductive LogCall
  | note (message : Bytes)
  | noteFrom (source message : Bytes)
  | clear
deriving DecidableEq

namespace LogCall

/-- The message that a call gives to a log, if it has one. -/
def message? : LogCall → Option Bytes
  | note message => if message = [] then none else some message
  | noteFrom source message => if message = [] then none else some (source ++ ": " ++ message)
  | clear => none

/-- The messages since the last of some calls that clears the log. -/
def messages (calls : List LogCall) : List Bytes :=
  (calls.rtakeWhile (· ≠ clear)).filterMap message?

/-- The messages after one more call. -/
def extend (messages : List Bytes) : LogCall → List Bytes
  | clear => []
  | call => messages ++ call.message?.toList

variable {call : LogCall}

theorem ne_nil_of_message? {message : Bytes} (h : call.message? = some message) : message ≠ [] := by
  cases call with
  | clear => cases h
  | note text =>
    rw [message?, Option.ite_none_left_eq_some] at h
    obtain ⟨htext, hmessage⟩ := h
    exact Option.some.inj hmessage ▸ htext
  | noteFrom source text =>
    rw [message?, Option.ite_none_left_eq_some] at h
    obtain ⟨htext, hmessage⟩ := h
    exact Option.some.inj hmessage ▸ List.append_ne_nil_of_right_ne_nil _ htext

theorem extend_of_ne_clear (hclear : call ≠ clear) (messages : List Bytes) :
    call.extend messages = messages ++ call.message?.toList := by
  cases call with
  | clear => exact absurd rfl hclear
  | note | noteFrom => rfl

theorem messages_concat (calls : List LogCall) (call : LogCall) :
    messages (calls ++ [call]) = call.extend (messages calls) := by
  by_cases hclear : call = clear
  · rw [hclear, messages, List.rtakeWhile_concat_neg _ _ _ (by simp)]
    rfl
  · rw [extend_of_ne_clear hclear, messages,
      List.rtakeWhile_concat_pos _ _ _ (by simpa using hclear), List.filterMap_append]
    rfl

end LogCall

namespace FailureLog

def after (log : FailureLog) : LogCall → FailureLog
  | .note message => log.note message
  | .noteFrom source message => log.noteFrom source message
  | .clear => empty

def ofCalls (calls : List LogCall) : FailureLog := calls.foldl after empty

variable (log : FailureLog) {call : LogCall}

/-- A call that does not clear the log notes its message, if it has one. -/
theorem after_of_ne_clear (hclear : call ≠ .clear) :
    log.after call = call.message?.elim log log.note := by
  cases call with
  | clear => exact absurd rfl hclear
  | note message =>
    rw [after, LogCall.message?]
    split
    · next hmessage => exact dif_pos hmessage
    · rfl
  | noteFrom source message =>
    rw [after, noteFrom, LogCall.message?]
    split <;> rfl

theorem messages_note {message : Bytes} (hmessage : message ≠ []) :
    (log.note message).messages = log.messages ++ [message] := by
  rw [note, dif_neg hmessage]

theorem messages_after (call : LogCall) : (log.after call).messages = call.extend log.messages := by
  by_cases hclear : call = .clear
  · rw [hclear]
    rfl
  · rw [log.after_of_ne_clear hclear, LogCall.extend_of_ne_clear hclear]
    cases hmessage : call.message? with
    | none => exact (List.append_nil _).symm
    | some message => exact log.messages_note (LogCall.ne_nil_of_message? hmessage)

theorem messages_ofCalls (calls : List LogCall) :
    (ofCalls calls).messages = LogCall.messages calls := by
  induction calls using List.reverseRecOn with
  | nil => rfl
  | append_singleton calls call ih =>
    rw [LogCall.messages_concat, ← ih, ofCalls, List.foldl_append]
    exact messages_after _ _

end FailureLog

/-! ## Logs that keep their text -/

/-- What a log says, kept without its messages.  A message is taken by value: it is not the text of
the log itself, which would change while the message is added to it. -/
structure LogText where
  text : Bytes := []
  count : Nat := 0
deriving DecidableEq

namespace LogText

/-- A separator goes before a message unless there is no text yet. -/
def note (l : LogText) (message : Bytes) : LogText :=
  if message = [] then l
  else
    { text := if l.text = [] then message else l.text ++ "; " ++ message
      count := l.count + 1 }

def noteFrom (l : LogText) (source message : Bytes) : LogText :=
  if message = [] then l else l.note (source ++ ": " ++ message)

def isEmpty (l : LogText) : Bool := l.text.isEmpty

def after (l : LogText) : LogCall → LogText
  | .note message => l.note message
  | .noteFrom source message => l.noteFrom source message
  | .clear => {}

def ofCalls (calls : List LogCall) : LogText := calls.foldl after {}

/-- The text and the number tell these messages. -/
structure Tells (l : LogText) (messages : List Bytes) : Prop where
  text_eq : l.text = Bytes.join "; " messages
  count_eq : l.count = messages.length
  ne_nil : ∀ m ∈ messages, m ≠ []

variable {l : LogText} {messages : List Bytes} {call : LogCall}

theorem after_of_ne_clear (l : LogText) (hclear : call ≠ .clear) :
    l.after call = call.message?.elim l l.note := by
  cases call with
  | clear => exact absurd rfl hclear
  | note message =>
    rw [after, LogCall.message?]
    split
    · next hmessage => exact if_pos hmessage
    · rfl
  | noteFrom source message =>
    rw [after, noteFrom, LogCall.message?]
    split <;> rfl

theorem tells_nil : Tells {} [] := ⟨rfl, rfl, by simp⟩

/-- There is no text exactly if there are no messages, so the separator goes where it belongs. -/
theorem Tells.note (h : l.Tells messages) {message : Bytes} (hmessage : message ≠ []) :
    (l.note message).Tells (messages ++ [message]) := by
  have htext : l.text = [] ↔ messages = [] := by rw [h.text_eq, Bytes.join_eq_nil_iff h.ne_nil]
  rw [LogText.note, if_neg hmessage]
  refine ⟨?_, ?_, List.forall_mem_append.2 ⟨h.ne_nil, by simpa using hmessage⟩⟩
  · by_cases hnil : messages = []
    · rw [if_pos (htext.2 hnil), hnil, List.nil_append, Bytes.join_singleton]
    · rw [if_neg (mt htext.1 hnil), Bytes.join_append hnil (List.cons_ne_nil _ _),
        Bytes.join_singleton, h.text_eq]
  · rw [h.count_eq, List.length_append, List.length_singleton]

theorem Tells.after (h : l.Tells messages) (call : LogCall) :
    (l.after call).Tells (call.extend messages) := by
  by_cases hclear : call = .clear
  · rw [hclear]
    exact tells_nil
  · rw [l.after_of_ne_clear hclear, LogCall.extend_of_ne_clear hclear]
    cases hmessage : call.message? with
    | none => rwa [Option.toList_none, List.append_nil]
    | some message => exact h.note (LogCall.ne_nil_of_message? hmessage)

theorem tells_ofCalls (calls : List LogCall) : (ofCalls calls).Tells (LogCall.messages calls) := by
  induction calls using List.reverseRecOn with
  | nil => exact tells_nil
  | append_singleton calls call ih =>
    rw [LogCall.messages_concat, ofCalls, List.foldl_append]
    exact ih.after call

theorem Tells.count_eq_zero_iff (h : l.Tells messages) : l.count = 0 ↔ l.text = [] := by
  rw [h.count_eq, h.text_eq, Bytes.join_eq_nil_iff h.ne_nil, List.length_eq_zero_iff]

theorem isEmpty_iff : l.isEmpty = true ↔ l.text = [] := List.isEmpty_iff

/-- Each message makes the text longer, so a counter as wide as the length of a text is wide
enough. -/
theorem Tells.count_le (h : l.Tells messages) : l.count ≤ l.text.length := by
  rw [h.count_eq, h.text_eq]
  exact Bytes.length_le_length_join h.ne_nil

end LogText

namespace FailureLog

/-- After any calls, a log that keeps its text says the messages since it was last cleared, and
counts them.  It is empty exactly if it counts none, and then alone its text is empty.  A log that
keeps its messages says the same. -/
theorem says_messages_since_clear (calls : List LogCall) :
    ((LogText.ofCalls calls).text = Bytes.join "; " (LogCall.messages calls) ∧
      (LogText.ofCalls calls).count = (LogCall.messages calls).length ∧
      ((LogText.ofCalls calls).isEmpty = true ↔ (LogText.ofCalls calls).count = 0) ∧
      ((LogText.ofCalls calls).count = 0 ↔ (LogText.ofCalls calls).text = []) ∧
      (LogText.ofCalls calls).count ≤ (LogText.ofCalls calls).text.length) ∧
    (ofCalls calls).text = (LogText.ofCalls calls).text ∧
    (ofCalls calls).count = (LogText.ofCalls calls).count ∧
    (ofCalls calls).isEmpty = (LogText.ofCalls calls).isEmpty := by
  have htells := LogText.tells_ofCalls calls
  have hzero := htells.count_eq_zero_iff
  have hcount : (ofCalls calls).count = (LogText.ofCalls calls).count := by
    rw [count, messages_ofCalls, htells.count_eq]
  refine ⟨⟨htells.text_eq, htells.count_eq, LogText.isEmpty_iff.trans hzero.symm, hzero,
    htells.count_le⟩, ?_, hcount, ?_⟩
  · rw [text, messages_ofCalls, htells.text_eq]
  · rw [Bool.eq_iff_iff, LogText.isEmpty_iff, ← hzero, ← hcount, isEmpty, List.isEmpty_iff, count,
      List.length_eq_zero_iff]

-- An empty message changes nothing, with a source or without, and an empty source leaves its colon.
example :
    LogText.ofCalls
        [.note "a", .clear, .noteFrom "" "b", .noteFrom "c" "", .note "", .note "d"] =
      { text := ": b; d", count := 2 } := by decide +kernel

end FailureLog
end StrongMotion

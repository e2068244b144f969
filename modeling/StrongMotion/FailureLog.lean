import StrongMotion.Text.Basic

/-!
# Failure logs

A log collects what went wrong with the files of a batch into one text.
-/

namespace StrongMotion

/-- The messages of a log, none of which is empty. -/
structure FailureLog where
  messages : List Bytes := []
  ne_nil : ∀ m ∈ messages, m ≠ [] := by simp
deriving DecidableEq

namespace FailureLog

def empty : FailureLog := {}

instance : Inhabited FailureLog := ⟨empty⟩

/-- The log with a message added; there is nothing to add in an empty one. -/
def note (log : FailureLog) (message : Bytes) : FailureLog :=
  if h : message = [] then log
  else
    { messages := log.messages ++ [message]
      ne_nil := by
        intro m hm
        rcases List.mem_append.1 hm with hm | hm
        · exact log.ne_nil m hm
        · rw [List.mem_singleton.1 hm]
          exact h }

/-- The log with a message about `source` added, unless the message is empty. -/
def noteFrom (log : FailureLog) (source message : Bytes) : FailureLog :=
  if message = [] then log else log.note (source ++ ": " ++ message)

def isEmpty (log : FailureLog) : Bool := log.messages.isEmpty

def count (log : FailureLog) : Nat := log.messages.length

def text (log : FailureLog) : Bytes := Bytes.join "; " log.messages

end FailureLog
end StrongMotion

import Mathlib.Data.String.Basic

/-!
# Sessions and messages

The records the session store keeps. `session/types.rs`, which declares them, is not among the
repository's files here; what follows is the shape that `session/mod.rs` relies on (a session has
a `key`, `Session::new(key)` makes an empty one) and the persisted record of the spec's data model
(§6: "the key and the ordered message list").

Nothing in the store looks inside a message: it caches, writes and reads whole sessions, and the
only operation it calls is `Session::new`. So a message is carried as its text alone, which is
enough to tell two transcripts apart; its role and its tool-call fields, which no code here reads,
are left out.
-/

namespace ZeptoClaw

/-- One turn of a transcript (`Message`), by its `content`. -/
structure Message where
  content : String
  deriving DecidableEq, Repr

/-- A conversation (`Session`): its key and its messages in conversation order. -/
structure Session where
  key : String
  messages : List Message
  deriving DecidableEq, Repr

/-- Modelled from the spec: `Session::new(key)`, the session a first reference creates, with the
given key and no messages (§3 "created on first reference (empty)", and the doc test of
`get_or_create`, which reads back `session.key`). -/
def Session.new (key : String) : Session :=
  ⟨key, []⟩

@[simp] theorem Session.new_key (key : String) : (Session.new key).key = key := rfl

end ZeptoClaw

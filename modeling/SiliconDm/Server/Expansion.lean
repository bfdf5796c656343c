import Mathlib.Algebra.BigOperators.Group.List.Basic
import SiliconDm.Server.History

/-!
# The size of an expanded bundle

A bundle is returned with its messages only within a budget: the whole expansion is small, or it
is but for its largest message. The rule is checked twice, before the messages are loaded on
sizes that SQL takes from stored columns, and message by message on the bytes that are sent.

Sources: `src/infrastructure/postgres/bundles.rs:26–39,240–350`,
`src/infrastructure/postgres/rows.rs:18–39`.
-/

namespace SiliconDm.Server.Expansion

open List

open Content (MessageCreate)
open History (Stored Returned)

def bundleResponseByteBudget : Nat := 128 * 1024 * 1024
def messagePageByteBudget : Nat := 16 * 1024 * 1024

/-- The budget rule. -/
def exceeds (total largest : Nat) : Bool :=
  bundleResponseByteBudget < total && messagePageByteBudget < total - largest

/-- `bundles.rs:30–39`. -/
def checkExpansionBudget (total largest : Nat) : Except String Unit :=
  if exceeds total largest then
    .error ("bundle expansion exceeds the response budget; retrieve the original messages " ++
      "individually using GET /api/v1/conversations/\x7bconversation_id\x7d/messages/" ++
      "\x7bmessage_id\x7d")
  else .ok ()

/-- The loop of both checks. The sizes are of values in memory, so `usize` does not saturate.
`bundles.rs:261–268,325–336`. -/
def checkSizes (total largest : Nat) : List Nat → Except String Unit
  | [] => .ok ()
  | bytes :: sizes => do
    checkExpansionBudget (total + bytes) (max largest bytes)
    checkSizes (total + bytes) (max largest bytes) sizes

def octetLength (text : Option String) : Nat :=
  text.elim 0 String.utf8ByteSize

/-- `message_payload_bytes`, for each message of a store: the JSON of a message has its text and
its transcript, each at least byte for byte. -/
structure Payload where
  bytes : Nat → Returned → Nat
  texts_le : ∀ id r, octetLength r.content.text + octetLength r.content.voiceTranscript ≤ bytes id r

def Payload.size (w : Payload) (m : Nat × Stored) : Nat :=
  w.bytes m.1 m.2.applyLatestRevisions

/-- The check of `load_bundle`, which starts with the display message. -/
def loadBundle (w : Payload) (display : Nat × Stored) (originals : List (Nat × Stored)) :
    Except String Unit :=
  checkSizes (w.size display) (w.size display) (originals.map w.size)

variable {total largest : Nat}

def texts : Payload where
  bytes _ r := octetLength r.content.text + octetLength r.content.voiceTranscript
  texts_le _ _ := le_rfl

/-- The row of a message that was deleted and never edited. -/
def tombstone : Option History.Row :=
  some ⟨none, [], none, some 1⟩

def framed : Payload where
  bytes _ r := 100 + (octetLength r.content.text + octetLength r.content.voiceTranscript)
  texts_le _ _ := Nat.le_add_left ..

end SiliconDm.Server.Expansion

import Micro6502.Text.Basic

/-! Where the messages of the machine go. -/

namespace Micro6502

/-- A receiver of messages. -/
class Journal (κ : Type) where
  /-- Take in one more message. -/
  record : κ → Text → κ

namespace Journal

/-- A machine to whose messages nobody listens. -/
instance : Journal Unit where
  record journal _ := journal

/-- All messages, in order. -/
instance : Journal (Array Text) where
  record messages message := messages.push message

/-- Two receivers of the same messages. -/
instance {κ μ : Type} [Journal κ] [Journal μ] : Journal (κ × μ) where
  record journals message := (record journals.1 message, record journals.2 message)

end Journal
end Micro6502

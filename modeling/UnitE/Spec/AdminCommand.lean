import UnitE.Spec.Process
import UnitE.Spec.Script
import UnitE.Spec.Serialize

/-! Admin commands in scripts (`admincommand.cpp`). A command is serialized as its type
byte and its vector of keys, and the bytes are pushed after `OP_RETURN`. Decoding reads the
first two operations of a script and the command from the data of the second. It keeps the
type the command had when the byte names no type, and it checks neither bytes after the
command nor operations after the push. -/

namespace UnitE.Esperanza

open Script

namespace AdminCommandType

/-- The `uint8_t` of a command type, `+m_command_type`. -/
def toIntegral : AdminCommandType → UInt8
  | .ADD_TO_WHITELIST => 0
  | .REMOVE_FROM_WHITELIST => 1
  | .RESET_ADMINS => 2
  | .END_PERMISSIONING => 3

/-- `AdminCommandType::_from_integral_nothrow`. -/
def fromIntegral (command_type : UInt8) : Option AdminCommandType :=
  if command_type = 0 then some .ADD_TO_WHITELIST
  else if command_type = 1 then some .REMOVE_FROM_WHITELIST
  else if command_type = 2 then some .RESET_ADMINS
  else if command_type = 3 then some .END_PERMISSIONING
  else none

end AdminCommandType

namespace AdminCommand

/-- `AdminCommand()`. -/
def default : AdminCommand := ⟨.REMOVE_FROM_WHITELIST, []⟩

/-- The check `AdminCommand::IsValid` makes of each key of the payload. -/
def keyIsValid (key : CPubKey) : Bool := key.IsValid && key.IsCompressed

/-- `AdminCommand::IsValid`: no keys to end permissioning, some keys to change the whitelist,
`ADMIN_MULTISIG_KEYS` keys to reset the admins, and every key valid and compressed. -/
def IsValid (c : AdminCommand) : Bool :=
  match c.commandType with
  | .END_PERMISSIONING => c.payload.isEmpty
  | .ADD_TO_WHITELIST | .REMOVE_FROM_WHITELIST => !c.payload.isEmpty && c.payload.all keyIsValid
  | .RESET_ADMINS => c.payload.length == ADMIN_MULTISIG_KEYS && c.payload.all keyIsValid

/-- `AdminCommand::SerializationOp` writing: the type byte, then the keys. -/
def Serialize (c : AdminCommand) : List UInt8 :=
  c.commandType.toIntegral :: SerializeKeys c.payload

/-- `AdminCommand::SerializationOp` reading into `c`. A byte that names no type leaves
`c`'s type as it is. -/
def Unserialize (fresh : Nat → Nat → UInt8) (c : AdminCommand) (s : List UInt8) :
    Option (AdminCommand × List UInt8) := do
  let (command_type, s) ← ser_readdata8 s
  let commandType := (AdminCommandType.fromIntegral command_type).getD c.commandType
  let (payload, s) ← UnserializeKeyVector fresh s
  pure (⟨commandType, payload⟩, s)

end AdminCommand

/-- `EncodeAdminCommand`: `OP_RETURN`, then the serialized command as one push. -/
def EncodeAdminCommand (command : AdminCommand) : List UInt8 :=
  OP_RETURN :: pushVector command.Serialize

/-- `DecodeAdminCommand` into `outAdminCommand`: the command it reads when it returns true. -/
def DecodeAdminCommand (fresh : Nat → Nat → UInt8) (script : List UInt8)
    (outAdminCommand : AdminCommand) : Option AdminCommand := do
  let (opcode, _, rest) ← GetScriptOp script
  if opcode ≠ OP_RETURN then none
  let (_, data, _) ← GetScriptOp rest
  let (command, _) ← outAdminCommand.Unserialize fresh data
  if command.IsValid then some command else none

end UnitE.Esperanza

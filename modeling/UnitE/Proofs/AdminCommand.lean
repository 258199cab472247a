import UnitE.Proofs.VoteScript
import UnitE.Spec.AdminCommand

/-! Admin commands read back. A `CompactSize` length below `MAX_SIZE` is read back, and so is
a key that `CPubKey::Set` could build. So `DecodeAdminCommand` reads back every valid
command that `EncodeAdminCommand` writes. It also accepts scripts that `EncodeAdminCommand`
does not write: bytes after the command, operations after the push, and a type byte that
names no type, which the decoded command does not keep. -/

namespace UnitE

open Bytes

theorem readBytes_append (l s : List UInt8) : readBytes l.length (l ++ s) = some (l, s) := by
  rw [readBytes, if_neg (by simp), List.take_left, List.drop_left]

theorem ser_readdataLE_toListLE {n x : Nat} (hx : x < 256 ^ n) (s : List UInt8) :
    ser_readdataLE n (toListLE n x ++ s) = some (x, s) := by
  have hread := readBytes_append (toListLE n x) s
  rw [length_toListLE] at hread
  rw [ser_readdataLE, hread, Option.map_some, ofListLE_toListLE_of_lt hx]

theorem ReadCompactSize_WriteCompactSize {n : Nat} (hn : n ≤ MAX_SIZE) (s : List UInt8) :
    ReadCompactSize (WriteCompactSize n ++ s) = some (n, s) := by
  have hmax : ¬MAX_SIZE < n := Nat.not_lt.mpr hn
  unfold WriteCompactSize
  split_ifs with h1 h2 h3
  · have hb : (UInt8.ofNat n).toNat = n := Script.toNat_ofNat_of_lt (by omega)
    have hlt : UInt8.ofNat n < 253 := by
      rw [UInt8.lt_iff_toNat_lt, hb]
      exact h1
    simp [ReadCompactSize, ser_readdata8, hlt, hb, hmax]
  · rw [List.cons_append]
    simp only [ReadCompactSize, ser_readdata8, Option.bind_eq_bind, Option.bind_some, Option.pure_def,
      show ¬(253 : UInt8) < 253 by decide, ↓reduceIte, ser_readdataLE_toListLE (show n < 256 ^ 2 by omega),
      h1, hmax, gt_iff_lt]
  · have hbig : ¬n < 0x10000 := by omega
    rw [List.cons_append]
    simp only [ReadCompactSize, ser_readdata8, Option.bind_eq_bind, Option.bind_some, Option.pure_def,
      show ¬(254 : UInt8) < 253 by decide, show ¬(254 : UInt8) = 253 by decide, ↓reduceIte,
      ser_readdataLE_toListLE (show n < 256 ^ 4 by omega), hbig, hmax, gt_iff_lt]
  · exact absurd hn (by unfold MAX_SIZE; omega)

namespace CPubKey

theorem size_le (k : CPubKey) : k.size ≤ PUBLIC_KEY_SIZE := by
  unfold size GetLen
  split_ifs <;> decide

theorem Serialize_of_length {k : CPubKey} (hlen : k.vch.length = k.size) :
    k.Serialize = WriteCompactSize k.size ++ k.vch := by
  rw [Serialize, List.take_of_length_le (Nat.le_of_eq hlen)]

/-- `CPubKey::Unserialize` reads back a valid key that has as many bytes as its header
announces, whatever the new key held before. -/
theorem Unserialize_Serialize (fresh : Nat → UInt8) {k : CPubKey} (hpos : 0 < k.size)
    (hlen : k.vch.length = k.size) (s : List UInt8) :
    Unserialize fresh (k.Serialize ++ s) = some (k, s) := by
  have hne : k.vch ≠ [] := by
    intro h
    rw [h, List.length_nil] at hlen
    omega
  have hread : readBytes k.size (k.vch ++ s) = some (k.vch, s) := hlen ▸ readBytes_append k.vch s
  -- the bytes past the key do not change its header, so it keeps its length
  have hkey : ∀ l : List UInt8, (k.vch ++ l).take (GetLen ((k.vch ++ l).headD 0xFF)) = k.vch := by
    intro l
    have hhead : (k.vch ++ l).headD 0xFF = k.vch.headD 0xFF := by
      obtain ⟨b, bs, hb⟩ := List.exists_cons_of_ne_nil hne
      rw [hb, List.cons_append, List.headD_cons, List.headD_cons]
    rw [hhead, ← size, ← hlen, List.take_left]
  have hmax : k.size ≤ MAX_SIZE := le_trans (size_le k) (by decide)
  rw [Serialize_of_length hlen, List.append_assoc, Unserialize, ReadCompactSize_WriteCompactSize hmax]
  simp only [Option.bind_eq_bind, Option.bind_some, size_le k, ↓reduceIte, hread, hkey, Option.pure_def]

end CPubKey

/-- The keys of a command, as `CPubKey::Set` builds them: valid, and as long as their header
announces. -/
def KeysWellFormed (keys : List CPubKey) : Prop := ∀ k ∈ keys, 0 < k.size ∧ k.vch.length = k.size

theorem UnserializeKeys_flatMap (fresh : Nat → Nat → UInt8) {keys : List CPubKey}
    (hkeys : KeysWellFormed keys) (i : Nat) (s : List UInt8) :
    UnserializeKeys fresh keys.length i (keys.flatMap CPubKey.Serialize ++ s) = some (keys, s) := by
  induction keys generalizing i with
  | nil => rfl
  | cons k keys ih =>
    obtain ⟨hpos, hlen⟩ := hkeys k List.mem_cons_self
    have hrest := ih (fun k' hk' => hkeys k' (List.mem_cons_of_mem _ hk')) (i + 1)
    rw [List.length_cons, List.flatMap_cons, List.append_assoc, UnserializeKeys,
      CPubKey.Unserialize_Serialize _ hpos hlen]
    simp only [Option.bind_eq_bind, Option.bind_some, hrest, Option.pure_def]

theorem UnserializeKeyVector_SerializeKeys (fresh : Nat → Nat → UInt8) {keys : List CPubKey}
    (hkeys : KeysWellFormed keys) (hn : keys.length ≤ MAX_SIZE) (s : List UInt8) :
    UnserializeKeyVector fresh (SerializeKeys keys ++ s) = some (keys, s) := by
  rw [SerializeKeys, List.append_assoc, UnserializeKeyVector, ReadCompactSize_WriteCompactSize hn]
  simp only [Option.bind_eq_bind, Option.bind_some, UnserializeKeys_flatMap fresh hkeys]

end UnitE

namespace UnitE.Esperanza

open Script

theorem AdminCommandType.fromIntegral_toIntegral (t : AdminCommandType) :
    AdminCommandType.fromIntegral t.toIntegral = some t := by
  cases t <;> rfl

namespace AdminCommand

variable {c : AdminCommand}

theorem keyIsValid_of_IsValid (hvalid : c.IsValid = true) : ∀ k ∈ c.payload, keyIsValid k = true := by
  obtain ⟨t, payload⟩ := c
  intro k hk
  cases t <;> simp_all [IsValid]

theorem size_of_IsValid (hvalid : c.IsValid = true) : ∀ k ∈ c.payload, k.size = 33 := by
  intro k hk
  have hkey := keyIsValid_of_IsValid hvalid k hk
  simp only [keyIsValid, CPubKey.IsCompressed, Bool.and_eq_true, beq_iff_eq] at hkey
  exact hkey.2

theorem keysWellFormed_of_IsValid (hvalid : c.IsValid = true)
    (hkeys : ∀ k ∈ c.payload, k.vch.length = k.size) : KeysWellFormed c.payload := by
  intro k hk
  refine ⟨?_, hkeys k hk⟩
  rw [size_of_IsValid hvalid k hk]
  decide

theorem Unserialize_cons (fresh : Nat → Nat → UInt8) (init : AdminCommand) (command_type : UInt8)
    {payload : List CPubKey} (hkeys : KeysWellFormed payload) (hn : payload.length ≤ MAX_SIZE)
    (s : List UInt8) :
    init.Unserialize fresh (command_type :: SerializeKeys payload ++ s) =
      some (⟨(AdminCommandType.fromIntegral command_type).getD init.commandType, payload⟩, s) := by
  rw [Unserialize, List.cons_append]
  simp only [ser_readdata8, Option.bind_eq_bind, Option.bind_some,
    UnserializeKeyVector_SerializeKeys fresh hkeys hn, Option.pure_def]

theorem Unserialize_Serialize (fresh : Nat → Nat → UInt8) (init : AdminCommand)
    (hkeys : KeysWellFormed c.payload) (hn : c.payload.length ≤ MAX_SIZE) (s : List UInt8) :
    init.Unserialize fresh (c.Serialize ++ s) = some (c, s) := by
  rw [Serialize, Unserialize_cons fresh init _ hkeys hn, AdminCommandType.fromIntegral_toIntegral,
    Option.getD_some]

theorem length_flatMap_Serialize {keys : List CPubKey}
    (hkeys : ∀ k ∈ keys, k.size = 33 ∧ k.vch.length = k.size) :
    (keys.flatMap CPubKey.Serialize).length = 34 * keys.length := by
  induction keys with
  | nil => rfl
  | cons k keys ih =>
    obtain ⟨h33, hlen⟩ := hkeys k List.mem_cons_self
    have hrest := ih fun k' hk' => hkeys k' (List.mem_cons_of_mem _ hk')
    rw [List.flatMap_cons, List.length_append, hrest, CPubKey.Serialize_of_length hlen,
      List.length_append, hlen, h33, List.length_cons]
    have hone : (WriteCompactSize 33).length = 1 := rfl
    omega

theorem length_WriteCompactSize_le (n : Nat) : (WriteCompactSize n).length ≤ 9 := by
  unfold WriteCompactSize
  split_ifs <;> simp

theorem length_Serialize_lt (hvalid : c.IsValid = true) (hkeys : ∀ k ∈ c.payload, k.vch.length = k.size)
    (hn : c.payload.length ≤ MAX_SIZE) : c.Serialize.length < 2 ^ 32 := by
  have hflat := length_flatMap_Serialize fun k hk => ⟨size_of_IsValid hvalid k hk, hkeys k hk⟩
  have hsize := length_WriteCompactSize_le c.payload.length
  rw [Serialize, SerializeKeys, List.length_cons, List.length_append, hflat]
  unfold MAX_SIZE at hn
  omega

end AdminCommand

/-- `DecodeAdminCommand` of `OP_RETURN` and a push reads the command from the pushed data and
ignores what follows the push. -/
theorem DecodeAdminCommand_push (fresh : Nat → Nat → UInt8) (init : AdminCommand) {data : List UInt8}
    (tail : List UInt8) (hlen : data.length < 2 ^ 32) :
    DecodeAdminCommand fresh (OP_RETURN :: pushVector data ++ tail) init =
      (init.Unserialize fresh data).bind fun r => if r.1.IsValid then some r.1 else none := by
  obtain ⟨opcode, hop⟩ := GetScriptOp_pushVector tail hlen
  have hret : GetScriptOp (OP_RETURN :: (pushVector data ++ tail)) =
      some (OP_RETURN, [], pushVector data ++ tail) :=
    rfl
  rw [DecodeAdminCommand, List.cons_append, hret]
  simp only [Option.bind_eq_bind, Option.bind_some, ne_eq, not_true_eq_false, ↓reduceIte, hop]

/-- `DecodeAdminCommand` reads back what `EncodeAdminCommand` writes of a valid command of at
most `MAX_SIZE` keys, followed by any bytes in the push and any operations after it. -/
theorem DecodeAdminCommand_trailing (fresh : Nat → Nat → UInt8) (init : AdminCommand) {c : AdminCommand}
    (hvalid : c.IsValid = true) (hkeys : ∀ k ∈ c.payload, k.vch.length = k.size)
    (hn : c.payload.length ≤ MAX_SIZE) (extra tail : List UInt8)
    (hlen : (c.Serialize ++ extra).length < 2 ^ 32) :
    DecodeAdminCommand fresh (OP_RETURN :: pushVector (c.Serialize ++ extra) ++ tail) init = some c := by
  rw [DecodeAdminCommand_push fresh init tail hlen,
    AdminCommand.Unserialize_Serialize fresh init (AdminCommand.keysWellFormed_of_IsValid hvalid hkeys) hn]
  simp only [Option.bind_some, hvalid, ↓reduceIte]

theorem DecodeAdminCommand_EncodeAdminCommand (fresh : Nat → Nat → UInt8) (init : AdminCommand)
    {c : AdminCommand} (hvalid : c.IsValid = true) (hkeys : ∀ k ∈ c.payload, k.vch.length = k.size)
    (hn : c.payload.length ≤ MAX_SIZE) :
    DecodeAdminCommand fresh (EncodeAdminCommand c) init = some c := by
  have hlen := AdminCommand.length_Serialize_lt hvalid hkeys hn
  have h := DecodeAdminCommand_trailing fresh init hvalid hkeys hn [] [] (by rwa [List.append_nil])
  rwa [List.append_nil, List.append_nil] at h

theorem DecodeAdminCommand_unknown_type (fresh : Nat → Nat → UInt8) (init : AdminCommand)
    {c : AdminCommand} (hvalid : c.IsValid = true) (hkeys : ∀ k ∈ c.payload, k.vch.length = k.size)
    (hn : c.payload.length ≤ MAX_SIZE) (htype : c.commandType = init.commandType) (command_type : UInt8)
    (hnone : AdminCommandType.fromIntegral command_type = none) :
    DecodeAdminCommand fresh (OP_RETURN :: pushVector (command_type :: SerializeKeys c.payload)) init =
      some c := by
  have hlen : (command_type :: SerializeKeys c.payload).length < 2 ^ 32 :=
    AdminCommand.length_Serialize_lt hvalid hkeys hn
  have hread := AdminCommand.Unserialize_cons fresh init command_type
    (AdminCommand.keysWellFormed_of_IsValid hvalid hkeys) hn []
  rw [List.append_nil, hnone, Option.getD_none, ← htype] at hread
  have h := DecodeAdminCommand_push fresh init [] hlen
  rw [List.append_nil, hread] at h
  rw [h]
  simp only [Option.bind_some, hvalid, ↓reduceIte]

/-- `DecodeAdminCommand`, from a new command, reads back every valid command that
`EncodeAdminCommand` writes, but it also accepts other scripts for the same command. Bytes
after the command in the push, or operations after the push, are ignored. A type byte that
names no type reads as the type of the new command, `REMOVE_FROM_WHITELIST`. -/
theorem DecodeAdminCommand_accepts_other_scripts (fresh : Nat → Nat → UInt8) {c : AdminCommand}
    (hvalid : c.IsValid = true) (hkeys : ∀ k ∈ c.payload, k.vch.length = k.size)
    (hn : c.payload.length ≤ MAX_SIZE) :
    DecodeAdminCommand fresh (EncodeAdminCommand c) AdminCommand.default = some c ∧
      (∀ extra tail : List UInt8, (c.Serialize ++ extra).length < 2 ^ 32 → extra ++ tail ≠ [] →
        OP_RETURN :: pushVector (c.Serialize ++ extra) ++ tail ≠ EncodeAdminCommand c ∧
          DecodeAdminCommand fresh (OP_RETURN :: pushVector (c.Serialize ++ extra) ++ tail)
            AdminCommand.default = some c) ∧
      (c.commandType = .REMOVE_FROM_WHITELIST → ∀ command_type : UInt8,
        AdminCommandType.fromIntegral command_type = none →
        OP_RETURN :: pushVector (command_type :: SerializeKeys c.payload) ≠ EncodeAdminCommand c ∧
          DecodeAdminCommand fresh (OP_RETURN :: pushVector (command_type :: SerializeKeys c.payload))
            AdminCommand.default = some c) := by
  refine ⟨DecodeAdminCommand_EncodeAdminCommand fresh _ hvalid hkeys hn, ?_, ?_⟩
  · intro extra tail hlen hne
    refine ⟨fun heq => ?_, DecodeAdminCommand_trailing fresh _ hvalid hkeys hn extra tail hlen⟩
    -- the other script is longer
    have hpush := @length_pushVector_add_le c.Serialize (c.Serialize ++ extra)
      (by rw [List.length_append]; omega)
    have hsum : 0 < extra.length + tail.length := by
      rw [← List.length_append]
      exact List.length_pos_iff.mpr hne
    have hl := congrArg List.length heq
    rw [EncodeAdminCommand, List.cons_append, List.length_cons, List.length_cons, List.length_append] at hl
    rw [List.length_append] at hpush
    omega
  · intro htype command_type hnone
    refine ⟨fun heq => ?_, DecodeAdminCommand_unknown_type fresh _ hvalid hkeys hn htype command_type hnone⟩
    have hlen := AdminCommand.length_Serialize_lt hvalid hkeys hn
    rw [EncodeAdminCommand, List.cons.injEq] at heq
    have hdata := pushVector_injective (by rwa [AdminCommand.Serialize] at hlen) hlen heq.2
    rw [AdminCommand.Serialize, List.cons.injEq] at hdata
    rw [hdata.1, AdminCommandType.fromIntegral_toIntegral] at hnone
    cases hnone

def removeOneKey : AdminCommand := ⟨.REMOVE_FROM_WHITELIST, [⟨2 :: List.replicate 32 7⟩]⟩

theorem DecodeAdminCommand_accepts_other_scripts_removeOneKey :
    removeOneKey.IsValid = true ∧ (∀ k ∈ removeOneKey.payload, k.vch.length = k.size) ∧
      removeOneKey.payload.length ≤ MAX_SIZE ∧
      (OP_RETURN :: pushVector (removeOneKey.Serialize ++ []) ++ [0x51] ≠ EncodeAdminCommand removeOneKey ∧
        DecodeAdminCommand (fun _ _ => 0) (OP_RETURN :: pushVector (removeOneKey.Serialize ++ []) ++ [0x51])
          AdminCommand.default = some removeOneKey) ∧
      (OP_RETURN :: pushVector (7 :: SerializeKeys removeOneKey.payload) ≠ EncodeAdminCommand removeOneKey ∧
        DecodeAdminCommand (fun _ _ => 0) (OP_RETURN :: pushVector (7 :: SerializeKeys removeOneKey.payload))
          AdminCommand.default = some removeOneKey) := by
  have hvalid : removeOneKey.IsValid = true := by decide
  have hkeys : ∀ k ∈ removeOneKey.payload, k.vch.length = k.size := by decide
  have hn : removeOneKey.payload.length ≤ MAX_SIZE := by decide
  have h := DecodeAdminCommand_accepts_other_scripts (fun _ _ => 0) hvalid hkeys hn
  exact ⟨hvalid, hkeys, hn, h.2.1 [] [0x51] (by decide) (by decide), h.2.2 rfl 7 rfl⟩

/-- A key whose length is written as 1 is read into a new key's first byte. With the header
of a compressed key there, the key is valid, and its other 32 bytes are the memory of the
new key that its constructor never sets. -/
theorem DecodeAdminCommand_short_key (fresh : Nat → Nat → UInt8) :
    DecodeAdminCommand fresh (OP_RETURN :: pushVector [1, 1, 1, 2]) AdminCommand.default =
      some ⟨.REMOVE_FROM_WHITELIST, [⟨2 :: (List.range' 1 32).map (fresh 0)⟩]⟩ := by
  have hkey : ((List.range' 1 64).map fun j => if j = 0 then (0xFF : UInt8) else fresh 0 j).take 32 =
      (List.range' 1 32).map (fresh 0) := by
    have hsplit : List.range' 1 (32 + 32) = List.range' 1 32 ++ List.range' (1 + 32) 32 :=
      List.range'_append_1.symm
    rw [hsplit, List.map_append, List.take_left' (by simp)]
    apply List.map_congr_left
    intro j hj
    rw [if_neg (by rw [List.mem_range'_1] at hj; omega)]
  rw [← List.append_nil (OP_RETURN :: _), List.cons_append, ← List.cons_append,
    DecodeAdminCommand_push fresh _ [] (by decide)]
  simp [AdminCommand.Unserialize, ser_readdata8, UnserializeKeyVector, ReadCompactSize, UnserializeKeys,
    CPubKey.Unserialize, readBytes, MAX_SIZE, CPubKey.PUBLIC_KEY_SIZE, CPubKey.GetLen, List.range_eq_range',
    CPubKey.COMPRESSED_PUBLIC_KEY_SIZE, AdminCommandType.fromIntegral, AdminCommand.default,
    AdminCommand.IsValid, AdminCommand.keyIsValid, CPubKey.IsValid, CPubKey.IsCompressed, CPubKey.size, hkey]

end UnitE.Esperanza

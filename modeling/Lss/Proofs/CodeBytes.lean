import Lss.Code.Codec
import Lss.Proofs.Basic

/-!
# Code as bytes

An instruction is found again in front of whatever follows it, since its operation tells how long
it is. So code is found again in its bytes, as long as it has no calls by name.
-/
namespace Lss

def Succeeds {ε α : Type} (r : Except ε α) : Prop := ∃ a, r = .ok a

section

variable {ε α β : Type}

theorem succeeds_ok (a : α) : Succeeds (.ok a : Except ε α) := ⟨a, rfl⟩

theorem succeeds_bind {x : Except ε α} {f : α → Except ε β} {p : Prop}
    (h : ∀ a, x = .ok a → (Succeeds (f a) ↔ p)) : Succeeds (x >>= f) ↔ Succeeds x ∧ p := by
  constructor
  · rintro ⟨b, hb⟩
    obtain ⟨a, ha, hb⟩ := bind_ok hb
    exact ⟨⟨a, ha⟩, (h a ha).mp ⟨b, hb⟩⟩
  · rintro ⟨⟨a, rfl⟩, hp⟩
    exact (h a rfl).mpr hp

theorem succeeds_map {x : Except ε α} (f : α → β) :
    Succeeds (x >>= fun a => pure (f a)) ↔ Succeeds x := by
  refine (succeeds_bind (p := True) fun a _ => ?_).trans (iff_of_eq (and_true _))
  exact iff_true_intro (succeeds_ok (f a))

theorem succeeds_mapM {f : α → Except ε β} {l : List α} :
    Succeeds (l.mapM f) ↔ ∀ a ∈ l, Succeeds (f a) := by
  induction l with
  | nil => simp [Succeeds, pure, Except.pure]
  | cons a l ih =>
    rw [List.mapM_cons, succeeds_bind fun b _ => succeeds_map (b :: ·), ih, List.forall_mem_cons]

end

namespace Instruction

theorem word?_word (x : UInt16) :
    word? (UInt8.ofNat x.toNat) (UInt8.ofNat (x.toNat / 256)) = x := by
  have hvalue := Word.value_bytes 2 x.toNat
  have hlt := x.toNat_lt
  rw [show Nat.pow 256 2 = 65536 from rfl, Nat.mod_eq_of_lt hlt] at hvalue
  show UInt16.ofNat (Word.value (Word.bytes 2 x.toNat)) = x
  rw [hvalue, UInt16.ofNat_toNat]

theorem long?_long (x : UInt32) :
    long? (UInt8.ofNat x.toNat) (UInt8.ofNat (x.toNat / 256)) (UInt8.ofNat (x.toNat / 256 / 256))
      (UInt8.ofNat (x.toNat / 256 / 256 / 256)) = x := by
  have hvalue := Word.value_bytes 4 x.toNat
  have hlt := x.toNat_lt
  rw [show Nat.pow 256 4 = 4294967296 from rfl, Nat.mod_eq_of_lt hlt] at hvalue
  show UInt32.ofNat (Word.value (Word.bytes 4 x.toNat)) = x
  rw [hvalue, UInt32.ofNat_toNat]

theorem length_operands {i : Instruction} (h : ∀ f argc, i ≠ .unresolvedCall f argc) :
    i.operands.length = i.opcode.operandSize := by
  cases i with
  | unresolvedCall f argc => exact absurd rfl (h f argc)
  | _ => rfl

theorem ofOperands?_operands {i : Instruction} (h : ∀ f argc, i ≠ .unresolvedCall f argc) :
    ofOperands? i.opcode i.operands = some i := by
  cases i with
  | unresolvedCall f argc => exact absurd rfl (h f argc)
  | _ =>
    simp only [opcode, operands, ofOperands?, simple?, byte, word, long, Word.bytes, word?_word,
      long?_long, List.cons_append, List.nil_append, Int8.toInt8_toUInt8, Int16.toInt16_toUInt16,
      Int32.toInt32_toUInt32]

theorem succeeds_encode {i : Instruction} :
    Succeeds i.encode ↔ ∀ f argc, i ≠ .unresolvedCall f argc := by
  cases i with
  | unresolvedCall f argc =>
    refine iff_of_false ?_ fun h => h f argc rfl
    rintro ⟨bytes, h⟩
    cases h
  | _ => exact iff_of_true (succeeds_ok _) fun f argc h => by cases h

theorem encode_eq {i : Instruction} (h : ∀ f argc, i ≠ .unresolvedCall f argc) :
    i.encode = .ok (i.opcode.toByte :: i.operands) := by
  cases i with
  | unresolvedCall f argc => exact absurd rfl (h f argc)
  | _ => rfl

/-- An instruction is read off the front of its bytes and any others. -/
theorem decode_append {i : Instruction} (h : ∀ f argc, i ≠ .unresolvedCall f argc)
    (offset : Nat) (rest : List UInt8) :
    decode offset i.opcode.toByte (i.operands ++ rest) = .ok i := by
  unfold decode
  rw [Opcode.ofByte?_toByte]
  simp only
  rw [List.take_left' (length_operands h), ofOperands?_operands h]

end Instruction

namespace Code

variable {code : Code} {bytes : List UInt8}

theorem succeeds_encode : Succeeds code.encode ↔ ∀ f argc, .unresolvedCall f argc ∉ code := by
  unfold encode
  rw [succeeds_map, succeeds_mapM]
  constructor
  · intro h f argc hmem
    exact Instruction.succeeds_encode.mp (h _ hmem) f argc rfl
  · intro h i hi
    refine Instruction.succeeds_encode.mpr fun f argc heq => h f argc ?_
    rw [← heq]
    exact hi

theorem encode_cons_ok {i : Instruction} (h : encode (i :: code) = .ok bytes) :
    (∀ f argc, i ≠ .unresolvedCall f argc) ∧
      ∃ rest, code.encode = .ok rest ∧ bytes = i.opcode.toByte :: (i.operands ++ rest) := by
  have hnamed := succeeds_encode.mp ⟨bytes, h⟩
  have hi : ∀ f argc, i ≠ .unresolvedCall f argc := by
    rintro f argc rfl
    exact hnamed f argc List.mem_cons_self
  refine ⟨hi, ?_⟩
  unfold encode at h ⊢
  rw [List.mapM_cons, Instruction.encode_eq hi] at h
  obtain ⟨all, hall, h⟩ := bind_ok h
  obtain ⟨head, hhead, hall⟩ := bind_ok hall
  obtain ⟨parts, hparts, hall⟩ := bind_ok hall
  cases hhead
  cases hall
  cases h
  rw [hparts]
  exact ⟨parts.flatten, rfl, rfl⟩

theorem length_encode (h : code.encode = .ok bytes) : bytes.length = Code.size code := by
  induction code generalizing bytes with
  | nil =>
    cases h
    rfl
  | cons i code ih =>
    obtain ⟨hi, rest, hrest, rfl⟩ := encode_cons_ok h
    have hoperands := Instruction.length_operands hi
    rw [List.length_cons, List.length_append, ih hrest, hoperands, Code.size_cons,
      Instruction.size]
    omega

theorem decodeOnto_encode (h : code.encode = .ok bytes) (acc : Code) (offset : Nat) :
    decodeOnto acc offset bytes = .ok (acc.reverse ++ code) := by
  induction code generalizing bytes acc offset with
  | nil =>
    cases h
    rw [List.append_nil]
    unfold decodeOnto
    rfl
  | cons i code ih =>
    obtain ⟨hi, rest, hrest, rfl⟩ := encode_cons_ok h
    rw [decodeOnto, Instruction.decode_append hi]
    simp only
    rw [List.drop_left' (Instruction.length_operands hi), ih hrest, List.reverse_cons,
      List.append_assoc, List.singleton_append]

theorem decode_encode (h : code.encode = .ok bytes) (offset : Nat) :
    decode offset bytes = .ok code :=
  decodeOnto_encode h [] offset

/-- Bytes have room for code whose length fits 32 bits, and none for calls by name. -/
def Encodable (code : Code) : Prop :=
  (∀ f argc, .unresolvedCall f argc ∉ code) ∧ Code.size code < UInt32.size

end Code

end Lss

import Lss.Proofs.RoundTrip

/-!
# Decoding is canonical

A reader takes from the front of any bytes just what the writer puts there for the value that was
read. So no two rows of bytes hold the same container in different ways, whoever wrote them.
-/
namespace Lss

namespace Instruction

theorem word_word? (a b : UInt8) : word (word? a b) = [a, b] := by
  have hlt : Word.value [a, b] < UInt16.size := by
    rw [show UInt16.size = Nat.pow 256 2 from rfl]
    exact Word.value_lt [a, b]
  unfold word word?
  rw [UInt16.toNat_ofNat_of_lt' hlt]
  exact Word.bytes_value [a, b]

theorem long_long? (a b c d : UInt8) : long (long? a b c d) = [a, b, c, d] := by
  have hlt : Word.value [a, b, c, d] < UInt32.size := by
    rw [show UInt32.size = Nat.pow 256 4 from rfl]
    exact Word.value_lt [a, b, c, d]
  unfold long long?
  rw [UInt32.toNat_ofNat_of_lt' hlt]
  exact Word.bytes_value [a, b, c, d]

theorem simple?_some {op : Opcode} {i : Instruction} (h : simple? op = some i) :
    i.opcode = op ∧ i.operands = [] ∧ ∀ f argc, i ≠ .unresolvedCall f argc := by
  unfold simple? at h
  split at h <;> cases h <;> exact ⟨rfl, rfl, by rintro f argc ⟨⟩⟩

/-- Operand bytes that make an instruction are its operand bytes. -/
theorem ofOperands?_some {op : Opcode} {bytes : List UInt8} {i : Instruction}
    (h : ofOperands? op bytes = some i) :
    i.opcode = op ∧ i.operands = bytes ∧ ∀ f argc, i ≠ .unresolvedCall f argc := by
  unfold ofOperands? at h
  split at h
  all_goals first
    | exact simple?_some h
    | cases h
      try
        refine ⟨rfl, ?_, by rintro f argc ⟨⟩⟩
        simp only [operands, byte, word_word?, long_long?, UInt8.toUInt8_toInt8,
          UInt16.toUInt16_toInt16, UInt32.toUInt32_toInt32, List.cons_append, List.nil_append]

/-- An instruction that was read has the bytes that it was read from. -/
theorem decode_ok {offset : Nat} {b : UInt8} {bs : List UInt8} {i : Instruction}
    (h : decode offset b bs = .ok i) :
    b = i.opcode.toByte ∧ bs.take i.opcode.operandSize = i.operands ∧
      ∀ f argc, i ≠ .unresolvedCall f argc := by
  unfold decode at h
  split at h
  · cases h
  · next op hop =>
    split at h
    · next j hj =>
      cases h
      obtain ⟨rfl, hoperands, hnamed⟩ := ofOperands?_some hj
      exact ⟨(Opcode.toByte_of_ofByte? hop).symm, hoperands.symm, hnamed⟩
    · cases h

end Instruction

namespace Code

theorem encode_cons {i : Instruction} {code : Code} {bytes : List UInt8}
    (hi : ∀ f argc, i ≠ .unresolvedCall f argc) (h : code.encode = .ok bytes) :
    encode (i :: code) = .ok (i.opcode.toByte :: (i.operands ++ bytes)) := by
  unfold encode at h ⊢
  obtain ⟨parts, hparts, h⟩ := bind_ok h
  cases h
  rw [List.mapM_cons, Instruction.encode_eq hi, hparts]
  rfl

theorem encode_decodeOnto {acc code : Code} {offset : Nat} {bytes : List UInt8}
    (h : decodeOnto acc offset bytes = .ok code) :
    ∃ tail, code = acc.reverse ++ tail ∧ encode tail = .ok bytes := by
  fun_induction decodeOnto acc offset bytes with
  | case1 acc =>
    cases h
    exact ⟨[], (List.append_nil _).symm, rfl⟩
  | case2 acc offset b bs i hi ih =>
    obtain ⟨tail, rfl, htail⟩ := ih h
    obtain ⟨rfl, hoperands, hnamed⟩ := Instruction.decode_ok hi
    refine ⟨i :: tail, by simp, ?_⟩
    rw [encode_cons hnamed htail, ← hoperands, List.take_append_drop]
  | case3 => cases h

theorem encode_decode {code : Code} {offset : Nat} {bytes : List UInt8}
    (h : decode offset bytes = .ok code) : code.encode = .ok bytes := by
  obtain ⟨tail, rfl, htail⟩ := encode_decodeOnto h
  exact htail

end Code

theorem toUTF8_of_fromUTF8? {raw : List UInt8} {name : String}
    (h : String.fromUTF8? (ByteArray.mk raw.toArray) = some name) : name.toUTF8.toList = raw := by
  unfold String.fromUTF8? at h
  split at h
  · cases h
    rw [toList_eq_data]
    rfl
  · cases h

namespace Container

section

variable {α β : Type} {input rest : Input} {x : α}

/-- Whatever bytes a reader takes, `f` writes them for the value that it gives. -/
def Reproduces (p : Reader α) (f : α → Except FormatError (List UInt8)) : Prop :=
  ∀ input x rest, p.run input = .ok (x, rest) →
    ∃ bytes, f x = .ok bytes ∧ input.rest = bytes ++ rest.rest

theorem run_bind_ok {p : Reader α} {q : α → Reader β} {y : β}
    (h : (p >>= q).run input = .ok (y, rest)) :
    ∃ x mid, p.run input = .ok (x, mid) ∧ (q x).run mid = .ok (y, rest) := by
  rw [StateT.run_bind] at h
  obtain ⟨⟨x, mid⟩, hx, h⟩ := bind_ok h
  exact ⟨x, mid, hx, h⟩

theorem run_map_ok {p : Reader α} {f : α → β} {y : β}
    (h : (f <$> p).run input = .ok (y, rest)) :
    ∃ x, p.run input = .ok (x, rest) ∧ y = f x := by
  rw [StateT.run_map] at h
  obtain ⟨⟨x, mid⟩, hx, h⟩ := bind_ok h
  cases h
  exact ⟨x, hx, rfl⟩

theorem take_ok {n : Nat} {found : List UInt8} (h : (take n).run input = .ok (found, rest)) :
    found.length = n ∧ input.rest = found ++ rest.rest := by
  have h : (if (input.rest.take n).length < n then .error (.unexpectedEnd input.offset)
      else .ok (input.rest.take n, ⟨input.rest.drop n, input.offset + n⟩) :
      Except FormatError (List UInt8 × Input)) = .ok (found, rest) := h
  split at h
  · cases h
  · next hlen =>
    cases h
    have hle := List.length_take_le n input.rest
    exact ⟨Nat.le_antisymm hle (Nat.not_lt.mp hlen), (List.take_append_drop n _).symm⟩

theorem readNat_ok {k n : Nat} (h : (readNat k).run input = .ok (n, rest)) :
    n < Nat.pow 256 k ∧ input.rest = Word.bytes k n ++ rest.rest := by
  obtain ⟨found, hfound, rfl⟩ := run_map_ok h
  obtain ⟨rfl, hrest⟩ := take_ok hfound
  exact ⟨Word.value_lt found, by rw [Word.bytes_value, hrest]⟩

theorem readWord_ok {w : UInt16} (h : readWord.run input = .ok (w, rest)) :
    input.rest = Word.bytes 2 w.toNat ++ rest.rest := by
  obtain ⟨n, hn, rfl⟩ := run_map_ok h
  obtain ⟨hlt, hrest⟩ := readNat_ok hn
  rw [UInt16.toNat_ofNat_of_lt' hlt, hrest]

theorem readByte_ok {b : UInt8} (h : readByte.run input = .ok (b, rest)) :
    input.rest = b :: rest.rest := by
  obtain ⟨n, hn, rfl⟩ := run_map_ok h
  obtain ⟨hlt, hrest⟩ := readNat_ok hn
  rw [hrest]
  rfl

end

theorem reproduces_name : Reproduces readName encodeName := by
  intro input name rest h
  obtain ⟨n, mid, hn, h⟩ := run_bind_ok h
  obtain ⟨start, _, hstart, h⟩ := run_bind_ok h
  cases hstart
  obtain ⟨raw, mid', hraw, h⟩ := run_bind_ok h
  obtain ⟨hlt, hcount⟩ := readNat_ok hn
  obtain ⟨hlen, hbytes⟩ := take_ok hraw
  split at h
  · next hname =>
    cases h
    have hutf := toUTF8_of_fromUTF8? hname
    have hsize : name.utf8ByteSize = n := by rw [← length_toUTF8, hutf, hlen]
    have hwrite : encodeCount .name name.utf8ByteSize = .ok (Word.bytes 2 n) := by
      rw [encodeCount, hsize, if_pos hlt]
    refine ⟨Word.bytes 2 n ++ raw, ?_, by rw [hcount, hbytes, List.append_assoc]⟩
    rw [encodeName, hwrite, ← hutf]
    rfl
  · cases h

theorem reproduces_code : Reproduces readCode encodeCode := by
  intro input code rest h
  obtain ⟨n, mid, hn, h⟩ := run_bind_ok h
  obtain ⟨start, _, hstart, h⟩ := run_bind_ok h
  cases hstart
  obtain ⟨raw, mid', hraw, h⟩ := run_bind_ok h
  obtain ⟨hlt, hcount⟩ := readNat_ok hn
  obtain ⟨hlen, hbytes⟩ := take_ok hraw
  split at h
  · next hcode =>
    cases h
    refine ⟨Word.bytes 4 n ++ raw, ?_, by rw [hcount, hbytes, List.append_assoc]⟩
    rw [← hlen] at hlt ⊢
    rw [encodeCode, Code.encode_decode hcode]
    exact if_pos hlt
  · cases h

section

variable {α : Type} {p : Reader α} {f : α → Except FormatError (List UInt8)}

theorem Reproduces.repeat (hp : Reproduces p f) {n : Nat} {acc xs : List α} {input rest : Input}
    (h : (repeatOnto p acc n).run input = .ok (xs, rest)) :
    ∃ tail parts, xs = acc.reverse ++ tail ∧ tail.length = n ∧ tail.mapM f = .ok parts ∧
      input.rest = parts.flatten ++ rest.rest := by
  induction n generalizing acc input with
  | zero =>
    cases h
    exact ⟨[], [], (List.append_nil _).symm, rfl, rfl, rfl⟩
  | succ n ih =>
    obtain ⟨x, mid, hx, h⟩ := run_bind_ok h
    obtain ⟨head, hhead, hinput⟩ := hp input x mid hx
    obtain ⟨tail, parts, rfl, hlen, hparts, hmid⟩ := ih h
    refine ⟨x :: tail, head :: parts, by simp, by rw [List.length_cons, hlen], ?_, ?_⟩
    · rw [List.mapM_cons, hhead, hparts]
      rfl
    · rw [hinput, hmid, List.flatten_cons, List.append_assoc]

theorem Reproduces.list (hp : Reproduces p f) (part : Section) :
    Reproduces (readList p) (encodeList part f) := by
  intro input xs rest h
  obtain ⟨n, mid, hn, h⟩ := run_bind_ok h
  obtain ⟨hlt, hcount⟩ := readNat_ok hn
  obtain ⟨tail, parts, hxs, hlen, hparts, hmid⟩ := hp.repeat h
  obtain rfl : xs = tail := hxs
  refine ⟨Word.bytes 2 n ++ parts.flatten, ?_, by rw [hcount, hmid, List.append_assoc]⟩
  have hwrite : encodeCount part xs.length = .ok (Word.bytes 2 n) := by
    rw [hlen]
    exact if_pos hlt
  rw [encodeList, hwrite, hparts]
  rfl

end

theorem reproduces_symbol : Reproduces readSymbol encodeSymbol := by
  intro input s rest h
  obtain ⟨w, hw, rfl⟩ := run_map_ok h
  exact ⟨_, rfl, readWord_ok hw⟩

theorem reproduces_function : Reproduces readFunction encodeFunction := by
  intro input e rest h
  obtain ⟨name, mid, hname, h⟩ := run_bind_ok h
  obtain ⟨count, mid', hcount, h⟩ := run_bind_ok h
  obtain ⟨code, mid'', hcode, h⟩ := run_bind_ok h
  cases h
  obtain ⟨a, ha, hinput⟩ := reproduces_name _ _ _ hname
  obtain ⟨b, hb, hmid⟩ := reproduces_code _ _ _ hcode
  refine ⟨a ++ count :: b, by rw [encodeFunction, ha, hb]; rfl, ?_⟩
  rw [hinput, readByte_ok hcount, hmid, List.append_assoc, List.cons_append]

theorem reproduces_method : Reproduces readMethod encodeMethod := by
  intro input e rest h
  obtain ⟨symbol, mid, hsymbol, h⟩ := run_bind_ok h
  obtain ⟨code, mid', hcode, h⟩ := run_bind_ok h
  cases h
  obtain ⟨a, ha, hinput⟩ := reproduces_symbol _ _ _ hsymbol
  obtain ⟨b, hb, hmid⟩ := reproduces_code _ _ _ hcode
  cases ha
  refine ⟨Word.bytes 2 symbol.index.toNat ++ b, by rw [encodeMethod, hb]; rfl, ?_⟩
  rw [hinput, hmid, List.append_assoc]

theorem reproduces_class : Reproduces readClass encodeClass := by
  intro input k rest h
  obtain ⟨name, mid, hname, h⟩ := run_bind_ok h
  obtain ⟨properties, mid', hproperties, h⟩ := run_bind_ok h
  obtain ⟨methods, mid'', hmethods, h⟩ := run_bind_ok h
  cases h
  obtain ⟨a, ha, hinput⟩ := reproduces_name _ _ _ hname
  obtain ⟨b, hb, hmid⟩ := reproduces_symbol.list .properties _ _ _ hproperties
  obtain ⟨d, hd, hmid'⟩ := reproduces_method.list .methods _ _ _ hmethods
  refine ⟨a ++ b ++ d, by rw [encodeClass, ha, hb, hd]; rfl, ?_⟩
  rw [hinput, hmid, hmid', List.append_assoc, List.append_assoc]

/-- A container that was read has its tables as their entries give them. -/
theorem reader_ok {input rest : Input} {c : Container} (h : reader.run input = .ok (c, rest)) :
    c.Indexed ∧ ∃ bytes, c.encode = .ok bytes ∧ input.rest = bytes ++ rest.rest := by
  obtain ⟨first, mid₁, hfirst, h⟩ := run_bind_ok h
  obtain ⟨-, hinput⟩ := take_ok hfirst
  split at h
  · obtain ⟨_, _, hthrow, _⟩ := run_bind_ok h
    cases hthrow
  · next hmagic =>
    obtain rfl : first = magic := by simpa using hmagic
    obtain ⟨major, mid₂, hmajor, h⟩ := run_bind_ok h
    obtain ⟨minor, mid₃, hminor, h⟩ := run_bind_ok h
    obtain ⟨strings, mid₄, hstrings, h⟩ := run_bind_ok h
    obtain ⟨symbols, mid₅, hsymbols, h⟩ := run_bind_ok h
    obtain ⟨globals, mid₆, hglobals, h⟩ := run_bind_ok h
    obtain ⟨functions, mid₇, hfunctions, h⟩ := run_bind_ok h
    obtain ⟨classes, mid₈, hclasses, h⟩ := run_bind_ok h
    cases h
    obtain ⟨a, ha, hmid₃⟩ := reproduces_name.list (.table .strings) _ _ _ hstrings
    obtain ⟨b, hb, hmid₄⟩ := reproduces_name.list (.table .symbols) _ _ _ hsymbols
    obtain ⟨d, hd, hmid₅⟩ := reproduces_name.list (.table .globals) _ _ _ hglobals
    obtain ⟨e, he, hmid₆⟩ := reproduces_function.list .functions _ _ _ hfunctions
    obtain ⟨k, hk, hmid₇⟩ := reproduces_class.list .classes _ _ _ hclasses
    refine ⟨fun id => ?_, magic ++ Word.bytes 2 major.toNat ++ Word.bytes 2 minor.toNat ++ a ++ b
      ++ d ++ e ++ k, ?_, ?_⟩
    · cases id <;> exact congrArg NameTable.ofList (NameTable.toList_ofList _).symm
    · simp only [encode, NameTable.toList_ofList, ha, hb, hd, he, hk]
      rfl
    · rw [hinput, readWord_ok hmajor, readWord_ok hminor, hmid₃, hmid₄, hmid₅, hmid₆, hmid₇]
      simp only [List.append_assoc]

/-- Bytes that hold a container start with its one encoded form, and whatever follows that form
makes no difference. -/
theorem decode_canonical (bytes : List UInt8) (c : Container) (h : decode bytes = .ok c) :
    ∃ front, c.encode = .ok front ∧ front <+: bytes ∧
      ∀ rest, decode (front ++ rest) = .ok c := by
  unfold decode at h
  cases hrun : reader.run ⟨bytes, 0⟩ with
  | error e =>
    rw [hrun] at h
    cases h
  | ok r =>
    rw [hrun] at h
    cases h
    obtain ⟨hindexed, front, hfront, hbytes⟩ := reader_ok hrun
    refine ⟨front, hfront, ⟨r.2.rest, hbytes.symm⟩, fun rest => ?_⟩
    have hread := parses_container hfront rest 0
    rw [hindexed.reindexed_eq] at hread
    unfold decode
    rw [hread]
    rfl

/-- A container with one string twice and a float that is not a number, and a byte behind it. -/
def repeated : List UInt8 :=
  magic ++ [4, 0, 1, 0, 2, 0, 1, 0, 0x61, 1, 0, 0x61, 0, 0, 0, 0, 1, 0, 1, 0, 0x66, 0, 7, 0, 0, 0,
    0x08, 1, 0, 0xC0, 0x7F, 0x91, 0x90, 0, 0, 0xFF]

theorem decode_canonical_repeated :
    ∃ c front, decode repeated = .ok c ∧ c.encode = .ok front ∧ front <+: repeated ∧
      ∀ rest, decode (front ++ rest) = .ok c := by
  have hrun : (decode repeated).toOption.isSome := by decide +kernel
  cases h : decode repeated with
  | error e =>
    rw [h] at hrun
    cases hrun
  | ok c =>
    obtain ⟨front, hfront⟩ := decode_canonical repeated c h
    exact ⟨c, front, rfl, hfront⟩

end Container

end Lss

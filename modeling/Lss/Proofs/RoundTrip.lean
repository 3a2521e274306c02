import Lss.Container.Codec
import Lss.Proofs.CodeBytes
import Lss.Proofs.Tables

/-!
# Containers as bytes

Every part of a container stands behind its length or has a fixed one, so a reader takes the bytes
of a part from the front of any others. What can be written is read back.
-/
namespace Lss

theorem toList_eq_data (bytes : ByteArray) : bytes.toList = bytes.data.toList := by
  have hloop (i : Nat) (r : List UInt8) :
      ByteArray.toList.loop bytes i r = r.reverse ++ bytes.data.toList.drop i := by
    fun_induction ByteArray.toList.loop bytes i r with
    | case1 i r hi ih =>
      have hget : bytes.get! i = bytes.data.toList[i] := by
        simp [ByteArray.get!, getElem!_pos bytes.data i hi]
      have hsplit := List.drop_eq_getElem_cons (l := bytes.data.toList) (i := i) hi
      rw [ih, hsplit, hget, List.reverse_cons, List.append_assoc, List.singleton_append]
    | case2 i r hi =>
      rw [List.drop_of_length_le (by simpa using hi), List.append_nil]
  exact hloop 0 []

theorem fromUTF8?_toUTF8 (name : String) :
    String.fromUTF8? (ByteArray.mk name.toUTF8.toList.toArray) = some name := by
  rw [toList_eq_data, Array.toArray_toList]
  exact dif_pos name.isValidUTF8

theorem length_toUTF8 (name : String) : name.toUTF8.toList.length = name.utf8ByteSize := by
  rw [toList_eq_data, Array.length_toList]
  rfl

namespace Container

section

variable {α β : Type} {p : Reader α} {a b : List UInt8} {x : α} {y : β}

def Parses (p : Reader α) (bytes : List UInt8) (x : α) : Prop :=
  ∀ rest offset, p.run ⟨bytes ++ rest, offset⟩ = .ok (x, ⟨rest, offset + bytes.length⟩)

theorem Parses.pure (x : α) : Parses (Pure.pure x) [] x := fun _ _ => rfl

theorem Parses.bind {f : α → Reader β} (hp : Parses p a x) (hf : Parses (f x) b y) :
    Parses (p >>= f) (a ++ b) y := by
  intro rest offset
  rw [StateT.run_bind, List.append_assoc, hp]
  show (f x).run _ = _
  rw [hf, List.length_append, Nat.add_assoc]

theorem Parses.map (f : α → β) (hp : Parses p a x) : Parses (f <$> p) a (f x) := by
  intro rest offset
  rw [StateT.run_map, hp]
  rfl

/-- The last part of a whole, after which nothing is taken. -/
theorem Parses.finish {f : α → Reader β} (hp : Parses p a x) (hf : Parses (f x) [] y) :
    Parses (p >>= f) a y := by
  have := hp.bind hf
  rwa [List.append_nil] at this

/-- Where a part starts does not matter. -/
theorem Parses.get {q : Input → Reader α} (h : ∀ input, Parses (q input) a x) :
    Parses (get >>= q) a x :=
  fun rest offset => h ⟨a ++ rest, offset⟩ rest offset

theorem parses_take {n : Nat} (h : a.length = n) : Parses (take n) a a := by
  intro rest offset
  show (if _ then _ else _) = _
  rw [List.take_left' h, if_neg (by omega), List.drop_left' h, h]

theorem parses_readNat {k n : Nat} (h : n < Nat.pow 256 k) :
    Parses (readNat k) (Word.bytes k n) n := by
  have := (parses_take (Word.length_bytes k n)).map Word.value
  rwa [Word.value_bytes, Nat.mod_eq_of_lt h] at this

theorem parses_readWord (x : UInt16) : Parses readWord (Word.bytes 2 x.toNat) x := by
  have := (parses_readNat (k := 2) x.toNat_lt).map UInt16.ofNat
  rwa [UInt16.ofNat_toNat] at this

theorem parses_readByte (x : UInt8) : Parses readByte [x] x := by
  have hbytes : Word.bytes 1 x.toNat = [x] := by
    simp only [Word.bytes, UInt8.ofNat_toNat]
  have := (parses_readNat (k := 1) x.toNat_lt).map UInt8.ofNat
  rwa [UInt8.ofNat_toNat, hbytes] at this

end

section

variable {α : Type} {f : α → Except FormatError (List UInt8)} {p : Reader α} {bytes : List UInt8}

theorem encodeCount_ok {part : Section} {n : Nat} (h : encodeCount part n = .ok bytes) :
    n < 65536 ∧ bytes = Word.bytes 2 n := by
  unfold encodeCount at h
  split at h
  · next hn =>
    cases h
    exact ⟨hn, rfl⟩
  · cases h

theorem succeeds_encodeCount {part : Section} {n : Nat} :
    Succeeds (encodeCount part n) ↔ n ≤ 65535 := by
  unfold encodeCount
  split
  · next hn => exact iff_of_true (succeeds_ok _) (Nat.le_of_lt_succ hn)
  · next hn =>
    refine iff_of_false ?_ fun h => hn (Nat.lt_succ_of_le h)
    rintro ⟨bytes, h⟩
    cases h

theorem parses_name {name : String} (h : encodeName name = .ok bytes) :
    Parses readName bytes name := by
  obtain ⟨count, hcount, h⟩ := bind_ok h
  obtain ⟨hlt, rfl⟩ := encodeCount_ok hcount
  cases h
  refine (parses_readNat (k := 2) hlt).bind (.get fun input => ?_)
  refine (parses_take (length_toUTF8 name)).finish ?_
  rw [fromUTF8?_toUTF8]
  exact .pure name

theorem succeeds_encodeName {name : String} :
    Succeeds (encodeName name) ↔ name.utf8ByteSize ≤ 65535 := by
  unfold encodeName
  rw [succeeds_map, succeeds_encodeCount]

theorem parses_code {code : Code} (h : encodeCode code = .ok bytes) :
    Parses readCode bytes code := by
  obtain ⟨body, hbody, h⟩ := bind_ok h
  split at h
  · next hlt =>
    cases h
    refine (parses_readNat (k := 4) hlt).bind (.get fun input => ?_)
    refine (parses_take rfl).finish ?_
    rw [Code.decode_encode hbody]
    exact .pure code
  · cases h

theorem succeeds_encodeCode {code : Code} : Succeeds (encodeCode code) ↔ code.Encodable := by
  unfold encodeCode
  rw [Code.Encodable, ← Code.succeeds_encode]
  refine succeeds_bind fun body hbody => ?_
  rw [Code.length_encode hbody]
  split
  · next hlt => exact iff_of_true (succeeds_ok _) hlt
  · next hlt =>
    refine iff_of_false ?_ hlt
    rintro ⟨bytes, h⟩
    cases h

theorem parses_repeat (hp : ∀ x bytes, f x = .ok bytes → Parses p bytes x) {xs : List α}
    {parts : List (List UInt8)} (h : xs.mapM f = .ok parts) (acc : List α) :
    Parses (repeatOnto p acc xs.length) parts.flatten (acc.reverse ++ xs) := by
  induction xs generalizing parts acc with
  | nil =>
    cases h
    rw [List.append_nil]
    exact .pure _
  | cons x xs ih =>
    rw [List.mapM_cons] at h
    obtain ⟨head, hhead, h⟩ := bind_ok h
    obtain ⟨rest, hrest, h⟩ := bind_ok h
    cases h
    have hstep := (hp x head hhead).bind (f := fun y => repeatOnto p (y :: acc) xs.length)
      (ih hrest (x :: acc))
    rwa [List.reverse_cons, List.append_assoc, List.singleton_append] at hstep

theorem parses_list (hp : ∀ x bytes, f x = .ok bytes → Parses p bytes x) {part : Section}
    {xs : List α} (h : encodeList part f xs = .ok bytes) : Parses (readList p) bytes xs := by
  obtain ⟨count, hcount, h⟩ := bind_ok h
  obtain ⟨parts, hparts, h⟩ := bind_ok h
  obtain ⟨hlt, rfl⟩ := encodeCount_ok hcount
  cases h
  exact (parses_readNat (k := 2) hlt).bind (parses_repeat hp hparts [])

theorem succeeds_encodeList {part : Section} {xs : List α} :
    Succeeds (encodeList part f xs) ↔ xs.length ≤ 65535 ∧ ∀ x ∈ xs, Succeeds (f x) := by
  unfold encodeList
  rw [← @succeeds_encodeCount part, ← succeeds_mapM]
  exact succeeds_bind fun count _ => succeeds_map _

end

variable {bytes : List UInt8}

theorem parses_function {e : FunctionEntry} (h : encodeFunction e = .ok bytes) :
    Parses readFunction bytes e := by
  obtain ⟨name, hname, h⟩ := bind_ok h
  obtain ⟨code, hcode, h⟩ := bind_ok h
  cases h
  refine (parses_name hname).bind (b := [e.parameterCount] ++ code) ?_
  refine (parses_readByte e.parameterCount).bind ?_
  exact (parses_code hcode).finish (.pure e)

theorem parses_symbol {s : SymbolId} (h : encodeSymbol s = .ok bytes) :
    Parses readSymbol bytes s := by
  cases h
  exact (parses_readWord s.index).map SymbolId.mk

theorem parses_method {e : MethodEntry} (h : encodeMethod e = .ok bytes) :
    Parses readMethod bytes e := by
  obtain ⟨code, hcode, h⟩ := bind_ok h
  cases h
  exact (parses_symbol rfl).bind ((parses_code hcode).finish (.pure e))

theorem parses_class {k : ClassEntry} (h : encodeClass k = .ok bytes) :
    Parses readClass bytes k := by
  obtain ⟨name, hname, h⟩ := bind_ok h
  obtain ⟨properties, hproperties, h⟩ := bind_ok h
  obtain ⟨methods, hmethods, h⟩ := bind_ok h
  cases h
  rw [List.append_assoc]
  refine (parses_name hname).bind ?_
  refine (parses_list (fun _ _ => parses_symbol) hproperties).bind ?_
  exact (parses_list (fun _ _ => parses_method) hmethods).finish (.pure k)

def reindexed (c : Container) : Container :=
  { c with
    strings := .ofList c.strings.toList
    symbols := .ofList c.symbols.toList
    globals := .ofList c.globals.toList }

theorem parses_container {c : Container} (h : c.encode = .ok bytes) :
    Parses reader bytes c.reindexed := by
  obtain ⟨strings, hstrings, h⟩ := bind_ok h
  obtain ⟨symbols, hsymbols, h⟩ := bind_ok h
  obtain ⟨globals, hglobals, h⟩ := bind_ok h
  obtain ⟨functions, hfunctions, h⟩ := bind_ok h
  obtain ⟨classes, hclasses, h⟩ := bind_ok h
  cases h
  simp only [List.append_assoc]
  refine (parses_take (a := magic) (n := 4) rfl).bind ?_
  refine (parses_readWord c.major).bind ?_
  refine (parses_readWord c.minor).bind ?_
  refine (parses_list (fun _ _ => parses_name) hstrings).bind ?_
  refine (parses_list (fun _ _ => parses_name) hsymbols).bind ?_
  refine (parses_list (fun _ _ => parses_name) hglobals).bind ?_
  refine (parses_list (fun _ _ => parses_function) hfunctions).bind ?_
  exact (parses_list (fun _ _ => parses_class) hclasses).finish (.pure c.reindexed)

/-- Bytes have room for the container: lengths of lists and names take 16 bits. -/
structure Encodable (c : Container) : Prop where
  tables : ∀ id, (c.table id).toList.length ≤ 65535 ∧
    ∀ name ∈ (c.table id).toList, name.utf8ByteSize ≤ 65535
  functions : c.functions.length ≤ 65535 ∧
    ∀ e ∈ c.functions, e.name.utf8ByteSize ≤ 65535 ∧ e.code.Encodable
  classes : c.classes.length ≤ 65535 ∧
    ∀ k ∈ c.classes, k.name.utf8ByteSize ≤ 65535 ∧ k.properties.length ≤ 65535 ∧
      k.methods.length ≤ 65535 ∧ ∀ e ∈ k.methods, e.code.Encodable

theorem succeeds_encodeFunction {e : FunctionEntry} :
    Succeeds (encodeFunction e) ↔ e.name.utf8ByteSize ≤ 65535 ∧ e.code.Encodable := by
  rw [← succeeds_encodeName, ← succeeds_encodeCode]
  exact succeeds_bind fun name _ => succeeds_map _

theorem succeeds_encodeMethod {e : MethodEntry} :
    Succeeds (encodeMethod e) ↔ e.code.Encodable := by
  rw [← succeeds_encodeCode]
  exact succeeds_map _

theorem succeeds_encodeClass {k : ClassEntry} :
    Succeeds (encodeClass k) ↔ k.name.utf8ByteSize ≤ 65535 ∧ k.properties.length ≤ 65535 ∧
      k.methods.length ≤ 65535 ∧ ∀ e ∈ k.methods, e.code.Encodable := by
  have hproperties : Succeeds (encodeList .properties encodeSymbol k.properties) ↔
      k.properties.length ≤ 65535 := by
    rw [succeeds_encodeList]
    exact and_iff_left fun s _ => succeeds_ok _
  have hmethods : Succeeds (encodeList .methods encodeMethod k.methods) ↔
      k.methods.length ≤ 65535 ∧ ∀ e ∈ k.methods, e.code.Encodable := by
    rw [succeeds_encodeList]
    simp only [succeeds_encodeMethod]
  rw [← succeeds_encodeName, ← hproperties, ← hmethods]
  exact succeeds_bind fun name _ => succeeds_bind fun properties _ => succeeds_map _

theorem succeeds_encode {c : Container} : Succeeds c.encode ↔ c.Encodable := by
  have hnames (part : Section) (t : NameTable) : Succeeds (encodeList part encodeName t.toList) ↔
      t.toList.length ≤ 65535 ∧ ∀ name ∈ t.toList, name.utf8ByteSize ≤ 65535 := by
    rw [succeeds_encodeList]
    simp only [succeeds_encodeName]
  have hparts : Succeeds c.encode ↔
      Succeeds (encodeList (.table .strings) encodeName c.strings.toList) ∧
      Succeeds (encodeList (.table .symbols) encodeName c.symbols.toList) ∧
      Succeeds (encodeList (.table .globals) encodeName c.globals.toList) ∧
      Succeeds (encodeList .functions encodeFunction c.functions) ∧
      Succeeds (encodeList .classes encodeClass c.classes) :=
    succeeds_bind fun _ _ => succeeds_bind fun _ _ => succeeds_bind fun _ _ =>
      succeeds_bind fun _ _ => succeeds_map _
  rw [hparts, hnames, hnames, hnames, succeeds_encodeList, succeeds_encodeList]
  simp only [succeeds_encodeFunction, succeeds_encodeClass]
  constructor
  · rintro ⟨hstrings, hsymbols, hglobals, hfunctions, hclasses⟩
    refine ⟨fun id => ?_, hfunctions, hclasses⟩
    cases id with
    | strings => exact hstrings
    | symbols => exact hsymbols
    | globals => exact hglobals
  · intro h
    exact ⟨h.tables .strings, h.tables .symbols, h.tables .globals, h.functions, h.classes⟩

/-- The same version, names, functions and classes. Tables are compared by their entries, and
floats in code by their bits. -/
structure Same (c d : Container) : Prop where
  major : c.major = d.major
  minor : c.minor = d.minor
  tables : ∀ id, (c.table id).toList = (d.table id).toList
  functions : c.functions = d.functions
  classes : c.classes = d.classes

/-- The index of every table is the one that its entries give when they are added in turn. -/
def Indexed (c : Container) : Prop := ∀ id, c.table id = .ofList (c.table id).toList

theorem same_reindexed (c : Container) : c.reindexed.Same c := by
  refine ⟨rfl, rfl, fun id => ?_, rfl, rfl⟩
  cases id <;> exact NameTable.toList_ofList _

theorem Indexed.reindexed_eq {c : Container} (h : c.Indexed) : c.reindexed = c := by
  obtain ⟨major, minor, strings, symbols, globals, functions, classes⟩ := c
  have hstrings := h .strings
  have hsymbols := h .symbols
  have hglobals := h .globals
  simp only [table] at hstrings hsymbols hglobals
  simp only [reindexed, ← hstrings, ← hsymbols, ← hglobals]

/-- A container can be written if and only if bytes have room for it, and then it is read back. -/
theorem encode_decode_round_trip (c : Container) :
    (Succeeds c.encode ↔ c.Encodable) ∧ ∀ bytes, c.encode = .ok bytes →
      ∃ d, decode bytes = .ok d ∧ d.Same c ∧ (c.Indexed → d = c) := by
  refine ⟨succeeds_encode, fun bytes h => ?_⟩
  refine ⟨c.reindexed, ?_, same_reindexed c, Indexed.reindexed_eq⟩
  have hread := parses_container h [] 0
  rw [List.append_nil] at hread
  unfold decode
  rw [hread]
  rfl

/-- A container with a name that is not ASCII, a float that is not a number, a branch back and a
class. -/
def assorted : Container where
  strings := .ofList ["größe", ""]
  symbols := .ofList ["Box", "item"]
  globals := .ofList ["all"]
  functions := [⟨"main", 1, [.pushFloat ⟨0x7FC00001⟩, .pop, .pushInt32 (-70000),
    .branch .ifTrue (-6), .pushNothing, .return_]⟩]
  classes := [⟨"Box", [⟨1⟩], [⟨⟨1⟩, [.callFunction 0 1, .return_]⟩]⟩]

theorem encode_decode_round_trip_assorted :
    ∃ bytes, assorted.encode = .ok bytes ∧ assorted.Encodable ∧ decode bytes = .ok assorted := by
  have hindexed : assorted.Indexed := by
    intro id
    cases id <;> exact congrArg NameTable.ofList (NameTable.toList_ofList _).symm
  have hrun : assorted.encode.toOption.isSome := by decide +kernel
  obtain ⟨hiff, hread⟩ := encode_decode_round_trip assorted
  cases h : assorted.encode with
  | error e =>
    rw [h] at hrun
    cases hrun
  | ok bytes =>
    obtain ⟨d, hd, -, heq⟩ := hread bytes h
    rw [heq hindexed] at hd
    exact ⟨bytes, rfl, hiff.mp ⟨bytes, h⟩, hd⟩

end Container

end Lss

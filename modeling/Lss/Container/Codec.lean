import Lss.Code.Codec
import Lss.Container.Basic

/-!
Containers as bytes: a magic word, the version, the three tables, the functions, the classes.
Every list and name stands behind its length, so a reader never looks ahead.
-/
namespace Lss

namespace Container

def magic : List UInt8 := [0x4F, 0x53, 0x49, 0x00]

/-! Writing. -/

def encodeCount (part : Section) (n : Nat) : Except FormatError (List UInt8) :=
  if n < 65536 then .ok (Word.bytes 2 n) else .error (.tooLarge part)

def encodeName (name : String) : Except FormatError (List UInt8) := do
  let count ← encodeCount .name name.utf8ByteSize
  return count ++ name.toUTF8.toList

def encodeCode (code : Code) : Except FormatError (List UInt8) := do
  let body ← code.encode
  if body.length < 0x100000000 then return Word.bytes 4 body.length ++ body
  else throw (.tooLarge .code)

def encodeList {α : Type} (part : Section) (f : α → Except FormatError (List UInt8))
    (xs : List α) : Except FormatError (List UInt8) := do
  let count ← encodeCount part xs.length
  return count ++ (← xs.mapM f).flatten

def encodeFunction (f : FunctionEntry) : Except FormatError (List UInt8) := do
  let name ← encodeName f.name
  return name ++ f.parameterCount :: (← encodeCode f.code)

def encodeSymbol (s : SymbolId) : Except FormatError (List UInt8) :=
  .ok (Word.bytes 2 s.index.toNat)

def encodeMethod (m : MethodEntry) : Except FormatError (List UInt8) := do
  return Word.bytes 2 m.symbol.index.toNat ++ (← encodeCode m.code)

def encodeClass (k : ClassEntry) : Except FormatError (List UInt8) := do
  let name ← encodeName k.name
  let properties ← encodeList .properties encodeSymbol k.properties
  return name ++ properties ++ (← encodeList .methods encodeMethod k.methods)

def encode (c : Container) : Except FormatError (List UInt8) := do
  let strings ← encodeList (.table .strings) encodeName c.strings.toList
  let symbols ← encodeList (.table .symbols) encodeName c.symbols.toList
  let globals ← encodeList (.table .globals) encodeName c.globals.toList
  let functions ← encodeList .functions encodeFunction c.functions
  let classes ← encodeList .classes encodeClass c.classes
  return magic ++ Word.bytes 2 c.major.toNat ++ Word.bytes 2 c.minor.toNat ++ strings ++ symbols
    ++ globals ++ functions ++ classes

/-- The encoded form at the front of `capacity` bytes, the rest of which are zero. -/
def encodeInto (c : Container) (capacity : Nat) : Except FormatError (List UInt8) := do
  let bytes ← c.encode
  if bytes.length ≤ capacity then return bytes ++ List.replicate (capacity - bytes.length) 0
  else throw (.file .shortWrite)

/-! Reading. -/

structure Input where
  rest : List UInt8
  offset : Nat := 0

abbrev Reader := StateT Input (Except FormatError)

def take (n : Nat) : Reader (List UInt8) := fun input =>
  let found := input.rest.take n
  if found.length < n then .error (.unexpectedEnd input.offset)
  else .ok (found, ⟨input.rest.drop n, input.offset + n⟩)

def readNat (n : Nat) : Reader Nat := Word.value <$> take n

def readByte : Reader UInt8 := UInt8.ofNat <$> readNat 1

def readWord : Reader UInt16 := UInt16.ofNat <$> readNat 2

def readName : Reader String := do
  let n ← readNat 2
  let start := (← get).offset
  let raw ← take n
  match String.fromUTF8? (ByteArray.mk raw.toArray) with
  | some name => return name
  | none => throw (.invalidUtf8 start)

def readCode : Reader Code := do
  let n ← readNat 4
  let start := (← get).offset
  let raw ← take n
  match Code.decode start raw with
  | .ok code => return code
  | .error e => throw e

def repeatOnto {α : Type} (p : Reader α) (acc : List α) : Nat → Reader (List α)
  | 0 => pure acc.reverse
  | n + 1 => do repeatOnto p ((← p) :: acc) n

def readList {α : Type} (p : Reader α) : Reader (List α) := do
  repeatOnto p [] (← readNat 2)

def readFunction : Reader FunctionEntry := do
  let name ← readName
  let parameterCount ← readByte
  return ⟨name, parameterCount, ← readCode⟩

def readSymbol : Reader SymbolId := SymbolId.mk <$> readWord

def readMethod : Reader MethodEntry := do
  let symbol ← readSymbol
  return ⟨symbol, ← readCode⟩

def readClass : Reader ClassEntry := do
  let name ← readName
  let properties ← readList readSymbol
  return ⟨name, properties, ← readList readMethod⟩

def reader : Reader Container := do
  if (← take 4) != magic then throw .invalidMagic
  let major ← readWord
  let minor ← readWord
  let strings ← readList readName
  let symbols ← readList readName
  let globals ← readList readName
  let functions ← readList readFunction
  let classes ← readList readClass
  return ⟨major, minor, .ofList strings, .ofList symbols, .ofList globals, functions, classes⟩

/-- The container at the front of a row of bytes; what follows it is not looked at. -/
def decode (bytes : List UInt8) : Except FormatError Container :=
  (reader.run ⟨bytes, 0⟩).map (·.1)

end Container

end Lss

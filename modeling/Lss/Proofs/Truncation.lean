import Lss.Proofs.RoundTrip

/-!
# Truncated containers

Every read of a container asks for a number of bytes before it looks at them. So whatever is cut
off at the end is missed by the read that would have taken it, and no other error comes first.
-/
namespace Lss.Container

section

variable {α β : Type} {p : Reader α} {a b : List UInt8} {x : α} {y : β}

/-- Of any proper front part of these bytes, the reader says that it ends too early. -/
def Misses (p : Reader α) (bytes : List UInt8) : Prop :=
  ∀ n offset, n < bytes.length →
    ∃ k, k ≤ offset + n ∧ p.run ⟨bytes.take n, offset⟩ = .error (.unexpectedEnd k)

theorem misses_nil (p : Reader α) : Misses p [] := nofun

theorem Misses.bind {f : α → Reader β} (hp : Misses p a) (hx : Parses p a x)
    (hf : Misses (f x) b) : Misses (p >>= f) (a ++ b) := by
  intro n offset hn
  by_cases hcut : n < a.length
  · obtain ⟨k, hk, hrun⟩ := hp n offset hcut
    refine ⟨k, hk, ?_⟩
    rw [List.take_append_of_le_length (Nat.le_of_lt hcut), StateT.run_bind, hrun]
    rfl
  · have hle : a.length ≤ n := Nat.not_lt.mp hcut
    rw [List.length_append] at hn
    obtain ⟨k, hk, hrun⟩ := hf (n - a.length) (offset + a.length) (by omega)
    refine ⟨k, by omega, ?_⟩
    rw [List.take_append, List.take_of_length_le hle, StateT.run_bind, hx]
    exact hrun

theorem Misses.map (f : α → β) (hp : Misses p a) : Misses (f <$> p) a := by
  intro n offset hn
  obtain ⟨k, hk, hrun⟩ := hp n offset hn
  refine ⟨k, hk, ?_⟩
  rw [StateT.run_map, hrun]
  rfl

/-- The last part of a whole, after which nothing is taken. -/
theorem Misses.finish {f : α → Reader β} (hp : Misses p a) (hx : Parses p a x) :
    Misses (p >>= f) a := by
  have := hp.bind hx (misses_nil (f x))
  rwa [List.append_nil] at this

theorem Misses.get {q : Input → Reader α} (h : ∀ input, Misses (q input) a) :
    Misses (get >>= q) a :=
  fun n offset hn => h ⟨a.take n, offset⟩ n offset hn

theorem misses_take {n : Nat} (h : a.length = n) : Misses (take n) a := by
  intro m offset hm
  refine ⟨offset, Nat.le_add_right offset m, ?_⟩
  have hshort : ((a.take m).take n).length < n := by
    rw [List.take_take, List.length_take]
    omega
  exact if_pos hshort

theorem misses_readNat (k n : Nat) : Misses (readNat k) (Word.bytes k n) :=
  (misses_take (Word.length_bytes k n)).map Word.value

theorem misses_readWord (w : UInt16) : Misses readWord (Word.bytes 2 w.toNat) :=
  (misses_readNat 2 w.toNat).map UInt16.ofNat

theorem misses_readByte (w : UInt8) : Misses readByte [w] := by
  intro n offset hn
  obtain rfl : n = 0 := Nat.lt_one_iff.mp hn
  exact (misses_readNat 1 w.toNat).map UInt8.ofNat 0 offset Nat.one_pos

end

variable {bytes : List UInt8}

theorem misses_name {name : String} (h : encodeName name = .ok bytes) : Misses readName bytes := by
  obtain ⟨count, hcount, h⟩ := bind_ok h
  obtain ⟨hlt, rfl⟩ := encodeCount_ok hcount
  cases h
  refine (misses_readNat 2 _).bind (parses_readNat hlt) (.get fun input => ?_)
  have hlen := length_toUTF8 name
  exact (misses_take hlen).finish (parses_take hlen)

theorem misses_code {code : Code} (h : encodeCode code = .ok bytes) : Misses readCode bytes := by
  obtain ⟨body, hbody, h⟩ := bind_ok h
  split at h
  · next hlt =>
    cases h
    refine (misses_readNat 4 _).bind (parses_readNat hlt) (.get fun input => ?_)
    exact (misses_take rfl).finish (parses_take rfl)
  · cases h

section

variable {α : Type} {f : α → Except FormatError (List UInt8)} {p : Reader α}

theorem misses_repeat (hp : ∀ x bytes, f x = .ok bytes → Parses p bytes x)
    (hm : ∀ x bytes, f x = .ok bytes → Misses p bytes) {xs : List α}
    {parts : List (List UInt8)} (h : xs.mapM f = .ok parts) (acc : List α) :
    Misses (repeatOnto p acc xs.length) parts.flatten := by
  induction xs generalizing parts acc with
  | nil =>
    cases h
    exact misses_nil _
  | cons x xs ih =>
    rw [List.mapM_cons] at h
    obtain ⟨head, hhead, h⟩ := bind_ok h
    obtain ⟨rest, hrest, h⟩ := bind_ok h
    cases h
    exact (hm x head hhead).bind (f := fun y => repeatOnto p (y :: acc) xs.length)
      (hp x head hhead) (ih hrest (x :: acc))

theorem misses_list (hp : ∀ x bytes, f x = .ok bytes → Parses p bytes x)
    (hm : ∀ x bytes, f x = .ok bytes → Misses p bytes) {part : Section} {xs : List α}
    (h : encodeList part f xs = .ok bytes) : Misses (readList p) bytes := by
  obtain ⟨count, hcount, h⟩ := bind_ok h
  obtain ⟨parts, hparts, h⟩ := bind_ok h
  obtain ⟨hlt, rfl⟩ := encodeCount_ok hcount
  cases h
  exact (misses_readNat 2 _).bind (parses_readNat hlt) (misses_repeat hp hm hparts [])

end

theorem misses_symbol {s : SymbolId} (h : encodeSymbol s = .ok bytes) :
    Misses readSymbol bytes := by
  cases h
  exact (misses_readWord s.index).map SymbolId.mk

theorem misses_function {e : FunctionEntry} (h : encodeFunction e = .ok bytes) :
    Misses readFunction bytes := by
  obtain ⟨name, hname, h⟩ := bind_ok h
  obtain ⟨code, hcode, h⟩ := bind_ok h
  cases h
  refine (misses_name hname).bind (b := [e.parameterCount] ++ code) (parses_name hname) ?_
  refine (misses_readByte e.parameterCount).bind (parses_readByte e.parameterCount) ?_
  exact (misses_code hcode).finish (parses_code hcode)

theorem misses_method {e : MethodEntry} (h : encodeMethod e = .ok bytes) :
    Misses readMethod bytes := by
  obtain ⟨code, hcode, h⟩ := bind_ok h
  cases h
  refine (misses_symbol rfl).bind (parses_symbol rfl) ?_
  exact (misses_code hcode).finish (parses_code hcode)

theorem misses_class {k : ClassEntry} (h : encodeClass k = .ok bytes) :
    Misses readClass bytes := by
  obtain ⟨name, hname, h⟩ := bind_ok h
  obtain ⟨properties, hproperties, h⟩ := bind_ok h
  obtain ⟨methods, hmethods, h⟩ := bind_ok h
  cases h
  rw [List.append_assoc]
  refine (misses_name hname).bind (parses_name hname) ?_
  refine (misses_list (fun _ _ => parses_symbol) (fun _ _ => misses_symbol) hproperties).bind
    (parses_list (fun _ _ => parses_symbol) hproperties) ?_
  exact (misses_list (fun _ _ => parses_method) (fun _ _ => misses_method) hmethods).finish
    (parses_list (fun _ _ => parses_method) hmethods)

theorem misses_container {c : Container} (h : c.encode = .ok bytes) : Misses reader bytes := by
  obtain ⟨strings, hstrings, h⟩ := bind_ok h
  obtain ⟨symbols, hsymbols, h⟩ := bind_ok h
  obtain ⟨globals, hglobals, h⟩ := bind_ok h
  obtain ⟨functions, hfunctions, h⟩ := bind_ok h
  obtain ⟨classes, hclasses, h⟩ := bind_ok h
  cases h
  have hnames {part : Section} {xs : List String} {b : List UInt8}
      (h : encodeList part encodeName xs = .ok b) : Misses (readList readName) b :=
    misses_list (fun _ _ => parses_name) (fun _ _ => misses_name) h
  have hparses {part : Section} {xs : List String} {b : List UInt8}
      (h : encodeList part encodeName xs = .ok b) : Parses (readList readName) b xs :=
    parses_list (fun _ _ => parses_name) h
  simp only [List.append_assoc]
  refine (misses_take (a := magic) (n := 4) rfl).bind (parses_take rfl) ?_
  refine (misses_readWord c.major).bind (parses_readWord c.major) ?_
  refine (misses_readWord c.minor).bind (parses_readWord c.minor) ?_
  refine (hnames hstrings).bind (hparses hstrings) ?_
  refine (hnames hsymbols).bind (hparses hsymbols) ?_
  refine (hnames hglobals).bind (hparses hglobals) ?_
  refine (misses_list (fun _ _ => parses_function) (fun _ _ => misses_function) hfunctions).bind
    (parses_list (fun _ _ => parses_function) hfunctions) ?_
  exact (misses_list (fun _ _ => parses_class) (fun _ _ => misses_class) hclasses).finish
    (parses_list (fun _ _ => parses_class) hclasses)

/-- No proper front part of an encoded container decodes, and of each it is said that it ends too
early, at a place inside it. -/
theorem decode_truncated (c : Container) (bytes : List UInt8) (h : c.encode = .ok bytes) (n : Nat)
    (hn : n < bytes.length) :
    ∃ k, k ≤ n ∧ decode (bytes.take n) = .error (.unexpectedEnd k) := by
  obtain ⟨k, hk, hrun⟩ := misses_container h n 0 hn
  refine ⟨k, by omega, ?_⟩
  unfold decode
  rw [hrun]
  rfl

/-- Without its last byte, the last instruction of its only method is missing. -/
theorem decode_truncated_assorted :
    ∃ bytes, assorted.encode = .ok bytes ∧ bytes.length - 1 < bytes.length ∧
      ∃ k, k ≤ bytes.length - 1 ∧
        decode (bytes.take (bytes.length - 1)) = .error (.unexpectedEnd k) := by
  have hrun : assorted.encode.toOption.any (0 < ·.length) := by decide +kernel
  cases h : assorted.encode with
  | error e =>
    rw [h] at hrun
    cases hrun
  | ok bytes =>
    rw [h] at hrun
    have hpos : 0 < bytes.length := of_decide_eq_true hrun
    have hlt : bytes.length - 1 < bytes.length := Nat.sub_one_lt_of_lt hpos
    exact ⟨bytes, rfl, hlt, decode_truncated assorted bytes h _ hlt⟩

end Lss.Container

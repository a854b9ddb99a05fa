import AccessWindows.Document.Cbor.Reader
import AccessWindows.Document.Cbor.Writer
import Mathlib.Algebra.Group.Nat.Defs

/-!
# Reading CBOR — piece by piece

`Reads read b a` says that `read` makes `a` of the bytes `b` and leaves whatever follows them.
Readers in sequence read bytes in sequence (`Reads.bind`), so that a piece can be proved readable on
its own: the number of a head in its shortest form (`exists_head`), a string that gives its size or
is written open (`exists_string`), the same again and again, by number (`reads_times`) or up to a
break (`reads_openEnded`).

A break ends an open item because nothing that is repeated begins with it (`RefusesBreak`).
-/

namespace AccessWindows.Document.Cbor

/-- The reader makes this of the bytes, whatever follows them, and leaves what follows. -/
def Reads {α : Type} (read : Reader α) (b : List UInt8) (a : α) : Prop :=
  ∀ rest, read (b ++ rest) = some (a, rest)

section sequence

variable {α β : Type} {x : Reader α} {f : α → Reader β} {b b' : List UInt8} {a : α} {c : β}

theorem Reads.pure (a : α) : Reads (Pure.pure a) [] a := fun _ => rfl

/-- Two readers in turn read two pieces of the input, one behind the other. -/
theorem Reads.bind (hx : Reads x b a) (hf : Reads (f a) b' c) : Reads (x >>= f) (b ++ b') c := by
  intro rest
  rw [List.append_assoc]
  change (x (b ++ (b' ++ rest))).bind (fun p => f p.1 p.2) = _
  rw [hx]
  exact hf rest

/-- The second reader may read nothing. -/
theorem Reads.bind_nil (hx : Reads x b a) (hf : Reads (f a) [] c) : Reads (x >>= f) b c := by
  have h := hx.bind hf
  rwa [List.append_nil] at h

/-- What is made of a result is read from the same bytes. -/
theorem Reads.bind_pure (hx : Reads x b a) {g : α → β} :
    Reads (x >>= fun a => Pure.pure (g a)) b (g a) := hx.bind_nil (Reads.pure (g a))

theorem Reads.map (hx : Reads x b a) (g : α → β) : Reads (g <$> x) b (g a) := by
  intro rest
  change (x (b ++ rest)).bind (fun p => some (g p.1, p.2)) = _
  rw [hx]
  rfl

end sequence

namespace Reader

/-! ### Numbers and heads -/

theorem reads_byte (b : UInt8) : Reads byte [b] b := fun _ => rfl

/-- So many bytes are read as they stand. -/
theorem reads_take (b : List UInt8) : Reads (take b.length) b b := by
  intro rest
  rw [take, if_pos (by simp), List.take_left, List.drop_left]

/-- A number takes as many bytes as it is given. -/
theorem length_bigEndian (count n : Nat) : (bigEndian count n).length = count := by
  induction count generalizing n with
  | zero => rfl
  | succ count ih => rw [bigEndian, List.length_append, ih]; rfl

/-- As many bytes as are called for hold the number, up to multiples of their range. -/
theorem foldl_bigEndian (count n : Nat) :
    (bigEndian count n).foldl (fun acc b => 256 * acc + b.toNat) 0 = n % 256 ^ count := by
  induction count generalizing n with
  | zero => rw [bigEndian, List.foldl_nil, Nat.pow_zero, Nat.mod_one]
  | succ count ih =>
      have hlast : n.toUInt8.toNat = n % 256 := UInt8.toNat_ofNat'
      rw [bigEndian, List.foldl_append, ih, List.foldl_cons, List.foldl_nil, hlast, Nat.pow_succ,
        Nat.mul_comm (256 ^ count), Nat.mod_mul]
      omega

/-- A number that fits into its bytes is read back from them. -/
theorem reads_number (count : Nat) {n : Nat} (h : n < 256 ^ count) :
    Reads (number count) (bigEndian count n) n := by
  have htake := reads_take (bigEndian count n)
  rw [length_bigEndian] at htake
  have h' := htake.bind_pure (g := fun b => b.foldl (fun acc b => 256 * acc + b.toNat) 0)
  rwa [foldl_bigEndian, Nat.mod_eq_of_lt h] at h'

/-- A head says which kind of item follows, and the reader of arguments finds its number. -/
theorem exists_head (kind : Nat) {n : Nat} (h : n < UInt64.size) :
    ∃ info bytes, head kind n = (32 * kind + info).toUInt8 :: bytes ∧ info < 28 ∧
      Reads (argument info) bytes n := by
  unfold head
  split
  next h0 => exact ⟨n, [], rfl, by omega, by rw [argument, if_pos h0]; exact Reads.pure n⟩
  split
  next h1 => exact ⟨24, _, rfl, by decide, reads_number _ h1⟩
  split
  next h2 => exact ⟨25, _, rfl, by decide, reads_number _ h2⟩
  split
  next h3 => exact ⟨26, _, rfl, by decide, reads_number _ h3⟩
  next => exact ⟨27, _, rfl, by decide, reads_number _ h⟩

/-- The two parts of the first byte of an item. -/
theorem toNat_first {kind info : Nat} (hk : kind < 8) (hi : info < 32) :
    ((32 * kind + info).toUInt8.toNat / 32 = kind) ∧
      ((32 * kind + info).toUInt8.toNat % 32 = info) := by
  have h : (32 * kind + info).toUInt8.toNat = (32 * kind + info) % 256 := UInt8.toNat_ofNat'
  omega

/-! ### Repetition -/

section repetition

variable {α β : Type} {read : Reader β} {enc : α → List UInt8} {f : α → β} {xs : List α}

/-- A sequence of known length is read part by part. -/
theorem reads_times (h : ∀ x ∈ xs, Reads read (enc x) (f x)) :
    Reads (times read xs.length) (xs.flatMap enc) (xs.map f) := by
  induction xs with
  | nil => exact Reads.pure []
  | cons x xs ih =>
      obtain ⟨hx, hxs⟩ := List.forall_mem_cons.mp h
      exact hx.bind (ih hxs).bind_pure

/-- The reader finds nothing at the end of the input and nothing at a break. -/
structure RefusesBreak (read : Reader β) : Prop where
  nil : read [] = none
  cons : ∀ rest, read (0xff :: rest) = none

/-- What begins with a reader that refuses a break refuses it too. -/
theorem RefusesBreak.bind {γ : Type} (h : RefusesBreak read) (g : β → Reader γ) :
    RefusesBreak (read >>= g) where
  nil := by change (read []).bind _ = none; rw [h.nil]; rfl
  cons rest := by change (read (0xff :: rest)).bind _ = none; rw [h.cons]; rfl

/-- Where bytes can be read there is one, and it is no break. -/
theorem RefusesBreak.exists_cons (h : RefusesBreak read) {b : List UInt8} {a : β}
    (hr : Reads read b a) : ∃ first bytes, b = first :: bytes ∧ first ≠ 0xff := by
  have hb := hr []
  rw [List.append_nil] at hb
  cases b with
  | nil => rw [h.nil] at hb; cases hb
  | cons first bytes =>
      refine ⟨first, bytes, rfl, ?_⟩
      rintro rfl
      rw [h.cons] at hb
      cases hb

/-- Anything but a break is one more item. -/
theorem upToBreak_cons {first : UInt8} (hf : first ≠ 0xff) (n : Nat) (input : List UInt8) :
    upToBreak read (n + 1) (first :: input) =
      (do let a ← read; return a :: (← upToBreak read n) : Reader (List β)) (first :: input) := by
  rw [upToBreak]
  dsimp only
  split
  next heq => exact absurd (List.cons.inj heq).1 hf
  next => rfl

/-- Parts are read up to the first break, if no part begins with one. -/
theorem upToBreak_flatMap (hb : RefusesBreak read) (h : ∀ x ∈ xs, Reads read (enc x) (f x))
    {n : Nat} (hn : xs.length < n) : Reads (upToBreak read n) (xs.flatMap enc ++ [0xff])
      (xs.map f) := by
  induction xs generalizing n with
  | nil =>
      obtain ⟨n, rfl⟩ := Nat.exists_eq_add_one_of_ne_zero (Nat.ne_of_gt hn)
      intro rest
      rfl
  | cons x xs ih =>
      obtain ⟨n, rfl⟩ := Nat.exists_eq_add_one_of_ne_zero (Nat.ne_of_gt (Nat.zero_lt_of_lt hn))
      obtain ⟨hx, hxs⟩ := List.forall_mem_cons.mp h
      obtain ⟨first, bytes, he, hf⟩ := hb.exists_cons hx
      have hstep := hx.bind (ih hxs (Nat.lt_of_succ_lt_succ hn)).bind_pure
        (f := fun a => do return a :: (← upToBreak read n))
      intro rest
      have hstep := hstep rest
      rw [List.flatMap_cons, he, List.append_assoc, List.append_assoc, List.cons_append]
      rw [he, List.append_assoc, List.cons_append, List.append_assoc] at hstep
      rw [upToBreak_cons hf]
      exact hstep

/-- **Open items**: what is repeated up to a break is read one after the other. -/
theorem reads_openEnded (hb : RefusesBreak read) (h : ∀ x ∈ xs, Reads read (enc x) (f x)) :
    Reads (openEnded read) (xs.flatMap enc ++ [0xff]) (xs.map f) := by
  -- each repetition takes a byte at least, so the length of the input allows for all of them
  have hlen : xs.length ≤ (xs.flatMap enc).length := by
    induction xs with
    | nil => exact Nat.le_refl 0
    | cons x xs ih =>
        obtain ⟨hx, hxs⟩ := List.forall_mem_cons.mp h
        obtain ⟨first, bytes, he, -⟩ := hb.exists_cons hx
        have := ih hxs
        simp only [List.flatMap_cons, List.length_append, he, List.length_cons]
        omega
  intro rest
  refine upToBreak_flatMap hb h ?_ rest
  simp only [List.length_append, List.length_cons]
  omega

end repetition

/-! ### Strings -/

/-- No piece of a string begins with a break. -/
theorem refusesBreak_piece {kind : Nat} (hk : kind < 7) : RefusesBreak (piece kind) where
  nil := rfl
  cons rest := by
    change (if 7 = kind then _ else refuse : Reader _) rest = none
    rw [if_neg (by omega)]
    rfl

/-- A piece of a string is its head and its bytes. -/
theorem reads_piece {kind : Nat} (hk : kind < 8) {b : List UInt8} (h : b.length < UInt64.size) :
    Reads (piece kind) (head kind b.length ++ b) b := by
  obtain ⟨info, bytes, he, hi, hr⟩ := exists_head kind h
  obtain ⟨hkind, hinfo⟩ := toNat_first hk (by omega : info < 32)
  rw [he, List.cons_append]
  refine Reads.bind (reads_byte _) (?_ : Reads _ (bytes ++ b) b)
  rw [hkind, hinfo, if_pos rfl]
  exact hr.bind (reads_take b)

/-- A string is found behind its first byte, whether it gives its size or is written open. -/
theorem exists_string (kind : Nat) (hk : kind < 7) (b : List UInt8) :
    ∃ info bytes, writeString kind b = (32 * kind + info).toUInt8 :: bytes ∧ info < 32 ∧
      Reads (string kind info) bytes b := by
  unfold writeString
  split
  next h =>
      obtain ⟨info, bytes, he, hi, hr⟩ := exists_head kind h
      refine ⟨info, bytes ++ b, by rw [he]; rfl, by omega, ?_⟩
      rw [string, if_neg (by omega)]
      exact hr.bind (reads_take b)
  next =>
      refine ⟨31, _, rfl, by decide, ?_⟩
      have hone : ∀ x ∈ b, Reads (piece kind) (head kind 1 ++ [x]) [x] := fun x _ =>
        reads_piece (b := [x]) (by omega) (by decide : 1 < UInt64.size)
      have h := (reads_openEnded (refusesBreak_piece hk) hone).map List.flatten
      rwa [← List.flatMap_def, List.flatMap_singleton'] at h

end Reader

end AccessWindows.Document.Cbor

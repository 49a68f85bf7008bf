/-
  Byte strings: slices and big-endian numbers.

  * `beNat_beBytes`, `beBytes_beNat`: numbers as bytes and back.
  * `PrefixCodeOn`: codes that can be split off the front.
  * `slice_of_drop` and the lemmas beside it: what is read at a position, given the bytes from there on.
-/
import Mathlib.Tactic.Ring

namespace Ferrum.Lib

open List

abbrev Bytes := List UInt8

/-- The bytes of a literal. -/
def lit (s : String) : Bytes := s.toUTF8.toList

/-- The byte of an ASCII character. -/
def byte (c : Char) : UInt8 := UInt8.ofNat c.toNat

/-- The bytes `i ≤ · < j`. -/
def slice (bs : Bytes) (i j : ℕ) : Bytes := (bs.drop i).take (j - i)

/-- The number with the big-endian digits `bs`. -/
def beNat (bs : Bytes) : ℕ := bs.foldl (fun n b => n * 256 + b.toNat) 0

/-- The `w` low big-endian digits of `v`. -/
def beBytes : ℕ → ℕ → Bytes
  | 0, _ => []
  | w + 1, v => UInt8.ofNat (v / 256 ^ w) :: beBytes w v

@[simp] theorem length_beBytes (w v : ℕ) : (beBytes w v).length = w := by
  induction w with
  | zero => rfl
  | succ w ih => rw [beBytes, List.length_cons, ih]

/-- A number does not get smaller by further digits. -/
theorem le_foldl_digits {base : ℕ} (hb : 0 < base) (digit : UInt8 → ℕ) (bs : Bytes) (n : ℕ) :
    n ≤ bs.foldl (fun n b => n * base + digit b) n := by
  induction bs generalizing n with
  | nil => exact le_rfl
  | cons b bs ih =>
    exact (Nat.le_add_right_of_le (Nat.le_mul_of_pos_right n hb)).trans (ih _)

theorem foldl_digits (bs : Bytes) (n : ℕ) :
    bs.foldl (fun n b => n * 256 + b.toNat) n = n * 256 ^ bs.length + beNat bs := by
  induction bs generalizing n with
  | nil => simp [beNat]
  | cons b bs ih =>
    simp only [beNat, foldl_cons, length_cons] at ih ⊢
    rw [ih (n * 256 + b.toNat), ih (0 * 256 + b.toNat)]
    ring

theorem beNat_cons (b : UInt8) (bs : Bytes) :
    beNat (b :: bs) = b.toNat * 256 ^ bs.length + beNat bs := by
  rw [beNat, foldl_cons, foldl_digits, Nat.zero_mul, Nat.zero_add]

theorem beNat_append (a b : Bytes) : beNat (a ++ b) = beNat a * 256 ^ b.length + beNat b := by
  rw [beNat, foldl_append, foldl_digits]
  rfl

theorem beNat_beBytes (w v : ℕ) : beNat (beBytes w v) = v % 256 ^ w := by
  induction w with
  | zero => simp [beBytes, beNat, Nat.mod_one]
  | succ w ih =>
    have hb : (UInt8.ofNat (v / 256 ^ w)).toNat = v / 256 ^ w % 256 := UInt8.toNat_ofNat'
    rw [beBytes, beNat_cons, ih, length_beBytes, hb, Nat.pow_succ, Nat.mod_mul]
    ring

theorem beNat_lt (bs : Bytes) : beNat bs < 256 ^ bs.length := by
  induction bs with
  | nil => simp [beNat]
  | cons b bs ih =>
    have hb : b.toNat < 256 := b.toNat_lt
    calc beNat (b :: bs) = b.toNat * 256 ^ bs.length + beNat bs := beNat_cons b bs
      _ < b.toNat * 256 ^ bs.length + 256 ^ bs.length := by omega
      _ = (b.toNat + 1) * 256 ^ bs.length := by ring
      _ ≤ 256 * 256 ^ bs.length := Nat.mul_le_mul_right _ hb
      _ = 256 ^ (b :: bs).length := by rw [length_cons, Nat.pow_succ, Nat.mul_comm]

theorem beBytes_beNat (bs : Bytes) : beBytes bs.length (beNat bs) = bs := by
  have high : ∀ (bs : Bytes) (n : ℕ), beBytes bs.length (n * 256 ^ bs.length + beNat bs) = bs := by
    intro bs
    induction bs with
    | nil => exact fun _ => rfl
    | cons b bs ih =>
      intro n
      have hlt := beNat_lt bs
      have hpos : 0 < 256 ^ bs.length := Nat.pow_pos (by decide)
      have heq : n * 256 ^ (b :: bs).length + beNat (b :: bs) =
          (n * 256 + b.toNat) * 256 ^ bs.length + beNat bs := by
        rw [beNat_cons, length_cons, Nat.pow_succ]
        ring
      rw [heq, length_cons, beBytes, ih]
      congr 1
      rw [Nat.add_comm, Nat.add_mul_div_right _ _ hpos, Nat.div_eq_of_lt hlt, Nat.zero_add]
      have hb : b.toNat < 256 := b.toNat_lt
      exact UInt8.toNat_inj.1 (by rw [UInt8.toNat_ofNat']; omega)
  simpa using high bs 0

theorem beNat_inj {a b : Bytes} (h : beNat a = beNat b) (hln : a.length = b.length) : a = b := by
  rw [← beBytes_beNat a, ← beBytes_beNat b, h, hln]

theorem beBytes_inj {w v v' : ℕ} (h : beBytes w v = beBytes w v') (hv : v < 256 ^ w)
    (hv' : v' < 256 ^ w) : v = v' := by
  have := congrArg beNat h
  rwa [beNat_beBytes, beNat_beBytes, Nat.mod_eq_of_lt hv, Nat.mod_eq_of_lt hv'] at this

/-- A code whose words split off the front of any string in one way only. -/
def PrefixCode {α : Type*} (f : α → Bytes) : Prop :=
  ∀ a b s t, f a ++ s = f b ++ t → a = b ∧ s = t

theorem PrefixCode.of_width {α : Type*} {f : α → Bytes} {n : ℕ} (hn : ∀ a, (f a).length = n)
    (hf : Function.Injective f) : PrefixCode f := by
  intro a b s t h
  obtain ⟨h1, h2⟩ := append_inj h ((hn a).trans (hn b).symm)
  exact ⟨hf h1, h2⟩

/-- The same for the values that satisfy `p`. -/
def PrefixCodeOn {α : Type*} (p : α → Prop) (f : α → Bytes) : Prop :=
  ∀ a b, p a → p b → ∀ s t, f a ++ s = f b ++ t → a = b ∧ s = t

/-- Bytes after their length, in `w` bytes. -/
theorem prefixCodeOn_length (w : ℕ) :
    PrefixCodeOn (fun bs : Bytes => bs.length < 256 ^ w) fun bs => beBytes w bs.length ++ bs := by
  intro a b ha hb s t h
  rw [append_assoc, append_assoc] at h
  obtain ⟨hln, hr⟩ := append_inj h (by rw [length_beBytes, length_beBytes])
  exact append_inj hr (beBytes_inj hln ha hb)

section
variable {α β : Type*} {p : α → Prop} {q : β → Prop} {f : α → Bytes} {g : β → Bytes}

theorem PrefixCodeOn.append (hf : PrefixCodeOn p f) (hg : PrefixCodeOn q g) :
    PrefixCodeOn (fun e : α × β => p e.1 ∧ q e.2) fun e => f e.1 ++ g e.2 := by
  rintro ⟨a, b⟩ ⟨a', b'⟩ ⟨ha, hb⟩ ⟨ha', hb'⟩ s t h
  rw [append_assoc, append_assoc] at h
  obtain ⟨rfl, hr⟩ := hf a a' ha ha' _ _ h
  obtain ⟨rfl, hst⟩ := hg b b' hb hb' _ _ hr
  exact ⟨rfl, hst⟩

/-- A presence byte, and then the value if there is one. -/
theorem PrefixCodeOn.option (hf : PrefixCodeOn p f) :
    PrefixCodeOn (fun o : Option α => ∀ a, o = some a → p a)
      fun o => match o with
        | some a => 1 :: f a
        | none => [0] := by
  rintro (_ | a) (_ | b) ha hb s t h
  · exact ⟨rfl, (List.cons.inj h).2⟩
  · exact absurd (List.cons.inj h).1 (by decide)
  · exact absurd (List.cons.inj h).1 (by decide)
  · obtain ⟨rfl, hst⟩ := hf a b (ha a rfl) (hb b rfl) s t (List.cons.inj h).2
    exact ⟨rfl, hst⟩

theorem PrefixCodeOn.flatMap (hf : PrefixCodeOn p f) {n : ℕ} :
    PrefixCodeOn (fun l : List α => l.length = n ∧ ∀ a ∈ l, p a) (List.flatMap f) := by
  intro l
  induction l generalizing n with
  | nil =>
    rintro l' ⟨rfl, -⟩ ⟨hln, -⟩ s t h
    rw [length_nil, length_eq_zero_iff] at hln
    subst hln
    exact ⟨rfl, h⟩
  | cons a l ih =>
    rintro l' ⟨rfl, ha⟩ ⟨hln, hb⟩ s t h
    obtain ⟨b, l', rfl⟩ := exists_cons_of_length_eq_add_one hln
    rw [flatMap_cons, flatMap_cons, append_assoc, append_assoc] at h
    obtain ⟨rfl, hr⟩ := hf a b (ha a (by simp)) (hb b (by simp)) _ _ h
    obtain ⟨rfl, hst⟩ := ih l' ⟨rfl, fun c hc => ha c (by simp [hc])⟩
      ⟨by simpa using hln, fun c hc => hb c (by simp [hc])⟩ s t hr
    exact ⟨rfl, hst⟩

end

/-! ## Reading at a position -/

section
variable {bs a t : Bytes} {i j : ℕ}

theorem slice_of_drop (h : bs.drop i = a ++ t) : slice bs i (i + a.length) = a := by
  rw [slice, h, Nat.add_sub_cancel_left, take_left]

theorem drop_of_drop (h : bs.drop i = a ++ t) : bs.drop (i + a.length) = t := by
  rw [← drop_drop, h, drop_left]

theorem length_of_drop (h : bs.drop i = a ++ t) (hi : i ≤ bs.length) :
    i + a.length + t.length = bs.length := by
  have := congrArg List.length h
  rw [length_drop, length_append] at this
  omega

theorem drop_eq_slice_append (h : i ≤ j) : bs.drop i = slice bs i j ++ bs.drop j := by
  have hd : (bs.drop i).drop (j - i) = bs.drop j := by
    rw [drop_drop, Nat.add_sub_of_le h]
  rw [slice, ← hd, take_append_drop]

theorem length_slice (h : j ≤ bs.length) : (slice bs i j).length = j - i := by
  rw [slice, length_take, length_drop]
  omega

theorem getElem?_of_drop {b : UInt8} (h : bs.drop i = b :: t) : bs[i]? = some b := by
  rw [← head?_drop, h, head?_cons]

theorem drop_of_getElem? {b : UInt8} (h : bs[i]? = some b) : bs.drop i = b :: bs.drop (i + 1) := by
  obtain ⟨hi, rfl⟩ := List.getElem?_eq_some_iff.1 h
  exact drop_eq_getElem_cons hi

end

/-- Bytes after their length. -/
def lengthPrefixed (w : ℕ) (bs : Bytes) : Bytes := beBytes w bs.length ++ bs

theorem length_lengthPrefixed (w : ℕ) (bs : Bytes) : (lengthPrefixed w bs).length = w + bs.length := by
  rw [lengthPrefixed, length_append, length_beBytes]

end Ferrum.Lib

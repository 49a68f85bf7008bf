/-
  What the route lookup caches key on: the path with encoded slashes folded, and the cache key.

  * `normalizeEncodedSlashes_bytes`: the result is always the folded path; the fallback for a
    result that is not UTF-8 is never taken.
  * `writeCacheKey_inj`: keys determine the lookup.
-/
import Ferrum.Lib.Str
import Mathlib.Data.Nat.Digits.Defs

namespace Ferrum.Router

open Lib List

/-! ## Encoded slashes -/

/-- The loop of `normalize_encoded_slashes`: the output and whether anything was replaced. -/
def foldSlashes : Bytes → Bytes × Bool
  | [] => ([], false)
  | b :: rest =>
    -- double-encoded slash
    if b = 0x25 ∧ (rest.take 4 = [0x32, 0x35, 0x32, 0x46] ∨ rest.take 4 = [0x32, 0x35, 0x32, 0x66]) then
      (0x2f :: (foldSlashes (rest.drop 4)).1, true)
    -- single-encoded slash
    else if b = 0x25 ∧ (rest.take 2 = [0x32, 0x46] ∨ rest.take 2 = [0x32, 0x66]) then
      (0x2f :: (foldSlashes (rest.drop 2)).1, true)
    else (b :: (foldSlashes rest).1, (foldSlashes rest).2)
termination_by bs => bs.length

def normalizeEncodedSlashes (path : Str) : Cow Str :=
  if path.bytes.contains 0x25 = false then .borrowed path
  else
    let (out, modified) := foldSlashes path.bytes
    if modified then
      match Str.fromUtf8 out with
      | some s => .owned s
      | none => .borrowed path
    else .borrowed path

/-- Folding copies bytes and replaces encoded slashes. -/
theorem foldSlashes_rewrite (bs : Bytes) : AsciiRewrite bs (foldSlashes bs).1 := by
  induction bs using foldSlashes.induct with
  | case1 => rw [foldSlashes]; exact .nil
  | case2 b rest h ih =>
    rw [foldSlashes, if_pos h]
    have := AsciiRewrite.replace (u := b :: rest.take 4) (v := [0x2f]) (by simp) ?_ ?_ ih
    · rwa [cons_append, take_append_drop] at this
    · rcases h with ⟨rfl, h | h⟩ <;> simp [h]
    · simp
  | case3 b rest h h' ih =>
    rw [foldSlashes, if_neg h, if_pos h']
    have := AsciiRewrite.replace (u := b :: rest.take 2) (v := [0x2f]) (by simp) ?_ ?_ ih
    · rwa [cons_append, take_append_drop] at this
    · rcases h' with ⟨rfl, h | h⟩ <;> simp [h]
    · simp
  | case4 b rest h h' ih =>
    rw [foldSlashes, if_neg h, if_neg h']
    exact .copy b ih

variable {bs path : Bytes} {n : ℕ} {host : Option Bytes}

theorem foldSlashes_of_not_modified (h : (foldSlashes bs).2 = false) : (foldSlashes bs).1 = bs := by
  induction bs using foldSlashes.induct with
  | case1 => rw [foldSlashes]
  | case2 b rest h1 ih => rw [foldSlashes, if_pos h1] at h; cases h
  | case3 b rest h1 h2 ih => rw [foldSlashes, if_neg h1, if_pos h2] at h; cases h
  | case4 b rest h1 h2 ih =>
    rw [foldSlashes, if_neg h1, if_neg h2] at h ⊢
    exact congrArg _ (ih h)

theorem foldSlashes_of_not_mem (h : (0x25 : UInt8) ∉ bs) : foldSlashes bs = (bs, false) := by
  induction bs using foldSlashes.induct with
  | case1 => rw [foldSlashes]
  | case2 b rest h1 ih => exact absurd (h1.1 ▸ mem_cons_self) h
  | case3 b rest h1 h2 ih => exact absurd (h2.1 ▸ mem_cons_self) h
  | case4 b rest h1 h2 ih =>
    rw [foldSlashes, if_neg h1, if_neg h2, ih fun hm => h (mem_cons_of_mem _ hm)]

/-- The normalized path is the folded path. -/
theorem normalizeEncodedSlashes_bytes (path : Str) :
    (normalizeEncodedSlashes path).get.bytes = (foldSlashes path.bytes).1 := by
  unfold normalizeEncodedSlashes
  split_ifs with hp
  · have : (0x25 : UInt8) ∉ path.bytes := by simpa using hp
    rw [foldSlashes_of_not_mem this]; rfl
  · rcases h : foldSlashes path.bytes with ⟨out, modified⟩
    cases modified with
    | false =>
      have : (foldSlashes path.bytes).1 = path.bytes := foldSlashes_of_not_modified (by rw [h])
      rw [h] at this
      simp only [Bool.false_eq_true, if_false]
      exact this.symm
    | true =>
      have hu : IsUtf8 out := by
        have := (foldSlashes_rewrite path.bytes).isUtf8 path.utf8
        rwa [h] at this
      simp only [if_true, Str.fromUtf8, dif_pos hu]
      rfl

/-- Without `%` there is nothing to fold. -/
theorem normalizeEncodedSlashes_of_not_mem {path : Str} (h : (0x25 : UInt8) ∉ path.bytes) :
    normalizeEncodedSlashes path = .borrowed path := by
  unfold normalizeEncodedSlashes
  rw [if_pos (by simpa using h)]

theorem mem_foldSlashes {x : UInt8} (h : x ∈ (foldSlashes bs).1) : x ∈ bs ∨ x = 0x2f := by
  induction bs using foldSlashes.induct with
  | case1 => rw [foldSlashes] at h; exact Or.inl h
  | case2 b rest h1 ih =>
    rw [foldSlashes, if_pos h1] at h
    rcases mem_cons.1 h with rfl | h
    · exact Or.inr rfl
    · exact (ih h).imp (fun hm => mem_cons_of_mem _ (mem_of_mem_drop hm)) id
  | case3 b rest h1 h2 ih =>
    rw [foldSlashes, if_neg h1, if_pos h2] at h
    rcases mem_cons.1 h with rfl | h
    · exact Or.inr rfl
    · exact (ih h).imp (fun hm => mem_cons_of_mem _ (mem_of_mem_drop hm)) id
  | case4 b rest h1 h2 ih =>
    rw [foldSlashes, if_neg h1, if_neg h2] at h
    rcases mem_cons.1 h with rfl | h
    · exact Or.inl mem_cons_self
    · exact (ih h).imp (mem_cons_of_mem _) id

/-! ## Cache keys -/

/-- A number in decimal. -/
def decimal (n : ℕ) : Bytes :=
  if n = 0 then [0x30] else (Nat.digits 10 n).reverse.map fun d => UInt8.ofNat (0x30 + d)

def portKey : Option UInt16 → Bytes
  | some port => decimal port.toNat
  | none => [0x2a]

def writeCacheKey (host : Option Bytes) (path : Bytes) (frontendPort : Option UInt16)
    (frontendIsTls : Bool) : Bytes :=
  host.getD [] ++ 0x00 :: (path ++ 0x00 ::
    (portKey frontendPort ++ 0x00 :: [if frontendIsTls then 0x74 else 0x70]))

theorem toNat_digit {d : ℕ} (hd : d ∈ Nat.digits 10 n) :
    (UInt8.ofNat (0x30 + d)).toNat = 0x30 + d := by
  have := Nat.digits_lt_base (by omega) hd
  rw [UInt8.toNat_ofNat', Nat.mod_eq_of_lt (by omega)]

theorem mem_decimal {b : UInt8} (h : b ∈ decimal n) : 0x30 ≤ b.toNat ∧ b.toNat ≤ 0x39 := by
  unfold decimal at h
  split_ifs at h with hn
  · rw [mem_singleton.1 h]; decide
  · rw [mem_map] at h
    obtain ⟨d, hd, rfl⟩ := h
    have := Nat.digits_lt_base (by omega) (mem_reverse.1 hd)
    rw [toNat_digit (mem_reverse.1 hd)]
    omega

theorem decimal_injective : Function.Injective decimal := by
  -- read the digits back
  have read : ∀ n, Nat.ofDigits 10 ((decimal n).reverse.map fun b => b.toNat - 0x30) = n := by
    intro n
    unfold decimal
    split_ifs with hn
    · subst hn; rfl
    · rw [← map_reverse, reverse_reverse, map_map]
      rw [map_congr_left (g := id) fun d hd => by
        rw [Function.comp_apply, toNat_digit hd, id]; omega]
      rw [map_id, Nat.ofDigits_digits]
  intro a b h
  rw [← read a, ← read b, h]

theorem portKey_none_ne (p : UInt16) : portKey none ≠ portKey (some p) := by
  intro h
  have hm : (0x2a : UInt8) ∈ portKey (some p) := h ▸ mem_singleton.2 rfl
  exact absurd (mem_decimal hm) (by decide)

theorem portKey_injective : Function.Injective portKey := by
  rintro (_ | p) (_ | q) h
  · rfl
  · exact absurd h (portKey_none_ne q)
  · exact absurd h.symm (portKey_none_ne p)
  · exact congrArg some (UInt16.toNat_inj.1 (decimal_injective h))

theorem nul_not_mem_portKey (p : Option UInt16) : (0x00 : UInt8) ∉ portKey p := by
  rcases p with _ | p
  · exact by decide
  · exact fun h => absurd (mem_decimal h) (by decide)

/-- The parts of a key, by splitting it at the NUL bytes. -/
theorem splitOn_writeCacheKey (hh : ∀ h ∈ host, (0x00 : UInt8) ∉ h) (hp : (0x00 : UInt8) ∉ path)
    (port : Option UInt16) (tls : Bool) :
    (writeCacheKey host path port tls).splitOn 0x00 =
      [host.getD [], path, portKey port, [if tls then 0x74 else 0x70]] := by
  have hhs : (0x00 : UInt8) ∉ host.getD [] := by
    rcases host with _ | h
    · exact not_mem_nil
    · exact hh h rfl
  have ht : (0x00 : UInt8) ∉ [if tls then (0x74 : UInt8) else 0x70] := by cases tls <;> decide
  have hpr := nul_not_mem_portKey port
  rw [writeCacheKey, splitOn_append_cons_self, splitOn_append_cons_self,
    splitOn_append_cons_self, splitOn_eq_singleton hhs, splitOn_eq_singleton hp,
    splitOn_eq_singleton hpr, splitOn_eq_singleton ht]
  rfl

/-- What a lookup may be keyed on: no NUL bytes, and a host that is given is not empty. -/
structure KeyOk (host : Option Bytes) (path : Bytes) : Prop where
  host_ne : ∀ h ∈ host, h ≠ []
  host_nul : ∀ h ∈ host, (0x00 : UInt8) ∉ h
  path_nul : (0x00 : UInt8) ∉ path

/-- **Keys determine the lookup.** -/
theorem writeCacheKey_inj {host' : Option Bytes} {path' : Bytes} {port port' : Option UInt16}
    {tls tls' : Bool} (hk : KeyOk host path) (hk' : KeyOk host' path')
    (h : writeCacheKey host path port tls = writeCacheKey host' path' port' tls') :
    host = host' ∧ path = path' ∧ port = port' ∧ tls = tls' := by
  have hs := congrArg (splitOn 0x00) h
  rw [splitOn_writeCacheKey hk.host_nul hk.path_nul, splitOn_writeCacheKey hk'.host_nul hk'.path_nul] at hs
  simp only [List.cons.injEq, and_true] at hs
  obtain ⟨hh, hp, hpr, ht⟩ := hs
  refine ⟨?_, hp, portKey_injective hpr, ?_⟩
  · rcases host with _ | a <;> rcases host' with _ | b
    · rfl
    · exact absurd hh.symm (hk'.host_ne b rfl)
    · exact absurd hh (hk.host_ne a rfl)
    · exact congrArg some hh
  · cases tls <;> cases tls' <;> first | rfl | exact absurd ht (by decide)

end Ferrum.Router

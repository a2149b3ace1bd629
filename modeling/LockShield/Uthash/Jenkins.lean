import LockShield.Lib.LittleEndian
import Mathlib.Tactic.IntervalCases

/-!
# `HASH_JEN`

The default `HASH_FUNCTION`, on the object that the key pointer points to; a read
past the end of the object is `none`. The code takes twelve bytes a turn and adds
what is left byte by byte, in a `switch` whose cases fall through.

It is compared with the hash of the blocks of the key (`jenkins`): three registers
absorb a block of twelve bytes, padded at the end, and are mixed after each.

## Results

* `hashJenLoop_eq`, `hashJenSwitch_eq` — the loop and the `switch` absorb blocks.
* `hashJen_eq`          — the macro is the hash of the blocks: it reads the bytes of the key,
  each of them and no other.
* `hashJenMix_injective` — `HASH_JEN_MIX` loses nothing of its registers.
* `hashJen_separates`   — keys of one length below twelve, pointers among them, differ in
  the three registers at the end, so that only the choice of one register lets two of
  them collide.
-/

namespace LockShield.Uthash

open Lib

/-- The registers `_hj_i`, `_hj_j` and `hashv`. -/
structure Jen where
  i : UInt32
  j : UInt32
  hashv : UInt32
  deriving DecidableEq

/-- `HASH_JEN_MIX(_hj_i, _hj_j, hashv)`. -/
def hashJenMix (r : Jen) : Jen :=
  let a := (r.i - r.j - r.hashv) ^^^ (r.hashv >>> 13)
  let b := (r.j - r.hashv - a) ^^^ (a <<< 8)
  let c := (r.hashv - a - b) ^^^ (b >>> 13)
  let a := (a - b - c) ^^^ (c >>> 12)
  let b := (b - c - a) ^^^ (a <<< 16)
  let c := (c - a - b) ^^^ (b >>> 5)
  let a := (a - b - c) ^^^ (c >>> 3)
  let b := (b - c - a) ^^^ (a <<< 10)
  let c := (c - a - b) ^^^ (b >>> 15)
  ⟨a, b, c⟩

/-- `(unsigned)_hj_key[n]`. -/
def keyByte (key : List UInt8) (n : Nat) : Option UInt32 := key[n]?.map UInt8.toUInt32

/-- Four bytes of the key, from `n` on. -/
def keyWord (key : List UInt8) (n : Nat) : Option UInt32 := do
  let b₀ ← keyByte key n
  let b₁ ← keyByte key (n + 1)
  let b₂ ← keyByte key (n + 2)
  let b₃ ← keyByte key (n + 3)
  return b₀ + (b₁ <<< 8) + (b₂ <<< 16) + (b₃ <<< 24)

/-- `while (_hj_k >= 12U)`: the pointer, `_hj_k` and the registers behind the loop. -/
def hashJenLoop : Nat → List UInt8 → Nat → Jen → Option (List UInt8 × Nat × Jen)
  | 0, key, k, r => some (key, k, r)
  | fuel + 1, key, k, r =>
    if 12 ≤ k then do
      let w₀ ← keyWord key 0
      let w₁ ← keyWord key 4
      let w₂ ← keyWord key 8
      hashJenLoop fuel (key.drop 12) (k - 12)
        (hashJenMix ⟨r.i + w₀, r.j + w₁, r.hashv + w₂⟩)
    else some (key, k, r)

/-- The statement at `case n`. -/
def hashJenCase (n : Nat) (b : UInt32) (r : Jen) : Jen :=
  match n with
  | 11 => { r with hashv := r.hashv + (b <<< 24) }
  | 10 => { r with hashv := r.hashv + (b <<< 16) }
  | 9 => { r with hashv := r.hashv + (b <<< 8) }
  | 8 => { r with j := r.j + (b <<< 24) }
  | 7 => { r with j := r.j + (b <<< 16) }
  | 6 => { r with j := r.j + (b <<< 8) }
  | 5 => { r with j := r.j + b }
  | 4 => { r with i := r.i + (b <<< 24) }
  | 3 => { r with i := r.i + (b <<< 16) }
  | 2 => { r with i := r.i + (b <<< 8) }
  | 1 => { r with i := r.i + b }
  | _ => r

/-- `switch (_hj_k)`: case `n` uses the byte before it and falls through. -/
def hashJenSwitch (key : List UInt8) : Nat → Jen → Option Jen
  | 0, r => some r
  | n + 1, r => do
    let b ← keyByte key n
    hashJenSwitch key n (hashJenCase (n + 1) b r)

/-- The registers before the first byte. -/
def Jen.start : Jen := ⟨0x9e3779b9, 0x9e3779b9, 0xfeedbeef⟩

/-- `HASH_JEN(key, keylen, hashv)`, with the registers that it leaves. -/
def hashJen (key : List UInt8) (keylen : Nat) : Option Jen := do
  let k := uint32 keylen
  let (rest, k', r) ← hashJenLoop k key k .start
  let r ← hashJenSwitch rest k' { r with hashv := r.hashv + UInt32.ofNat keylen }
  return hashJenMix r

/-! ## The hash of the blocks -/

/-- Word number `n` of a block, which zeros fill up. -/
def blockWord (bs : List UInt8) (n : Nat) : UInt32 :=
  UInt32.ofNat (ofBytes ((bs.drop (4 * n)).take 4))

/-- Add a block of twelve bytes and mix. -/
def Jen.absorb (r : Jen) (bs : List UInt8) : Jen :=
  hashJenMix ⟨r.i + blockWord bs 0, r.j + blockWord bs 1, r.hashv + blockWord bs 2⟩

/-- Add the last block, with `n` in the place of the ninth byte. -/
def Jen.finish (r : Jen) (n : Nat) (bs : List UInt8) : Jen :=
  hashJenMix ⟨r.i + blockWord bs 0, r.j + blockWord bs 1,
    r.hashv + UInt32.ofNat (n + 256 * ofBytes (bs.drop 8))⟩

/-- The registers behind the first `m` blocks of a key. -/
def Jen.absorbs (r : Jen) (m : Nat) (key : List UInt8) : Jen :=
  (List.range m).foldl (fun r b => r.absorb (key.drop (12 * b))) r

/-- The registers behind a key, block by block. -/
def jenkins (key : List UInt8) : Jen :=
  let m := key.length / 12
  (Jen.start.absorbs m key).finish key.length (key.drop (12 * m))

/-! ## The code and the blocks -/

theorem keyByte_of_lt {key : List UInt8} {n : Nat} (h : n < key.length) :
    keyByte key n = some (key.getD n 0).toUInt32 := by
  simp [keyByte, h]

theorem keyByte_of_le {key : List UInt8} {n : Nat} (h : key.length ≤ n) :
    keyByte key n = none := by
  simp [keyByte, h]

/-- A word that zeros fill up, from its bytes. -/
theorem ofNat_ofBytes_take (bs : List UInt8) :
    UInt32.ofNat (ofBytes (bs.take 4)) = (bs.getD 0 0).toUInt32 + ((bs.getD 1 0).toUInt32 <<< 8) +
      ((bs.getD 2 0).toUInt32 <<< 16) + ((bs.getD 3 0).toUInt32 <<< 24) := by
  rcases bs with _ | ⟨b₀, _ | ⟨b₁, _ | ⟨b₂, _ | ⟨b₃, bs⟩⟩⟩⟩
  all_goals
    simp [ofBytes, ← UInt32.toNat_inj, Nat.shiftLeft_eq]
    try omega

theorem blockWord_eq (bs : List UInt8) (n : Nat) :
    blockWord bs n = (bs.getD (4 * n) 0).toUInt32 + ((bs.getD (4 * n + 1) 0).toUInt32 <<< 8) +
      ((bs.getD (4 * n + 2) 0).toUInt32 <<< 16) + ((bs.getD (4 * n + 3) 0).toUInt32 <<< 24) := by
  rw [blockWord, ofNat_ofBytes_take]
  simp

/-- The last word, whose lowest byte is the number `n`. -/
theorem ofNat_last (n : Nat) (bs : List UInt8) (h : bs.length ≤ 3) :
    UInt32.ofNat (n + 256 * ofBytes bs) = UInt32.ofNat n + ((bs.getD 0 0).toUInt32 <<< 8) +
      ((bs.getD 1 0).toUInt32 <<< 16) + ((bs.getD 2 0).toUInt32 <<< 24) := by
  rcases bs with _ | ⟨b₀, _ | ⟨b₁, _ | ⟨b₂, _ | ⟨b₃, bs⟩⟩⟩⟩
  case cons.cons.cons.cons =>
    simp only [List.length_cons] at h
    omega
  all_goals
    simp [ofBytes, ← UInt32.toNat_inj, Nat.shiftLeft_eq]
    try omega

theorem keyWord_eq (key : List UInt8) (n : Nat) :
    keyWord key (4 * n) = if 4 * n + 4 ≤ key.length then some (blockWord key n) else none := by
  split
  case isTrue h =>
    rw [blockWord_eq, keyWord, keyByte_of_lt (by omega), keyByte_of_lt (by omega),
      keyByte_of_lt (by omega), keyByte_of_lt (by omega)]
    rfl
  case isFalse h =>
    -- at the latest the fourth byte is past the end
    have hlast : keyByte key (4 * n + 3) = none := keyByte_of_le (by omega)
    simp [keyWord, hlast]

theorem Jen.absorbs_succ (r : Jen) (m : Nat) (key : List UInt8) :
    r.absorbs (m + 1) key = (r.absorb key).absorbs m (key.drop 12) := by
  have hshift : (fun (r : Jen) b => r.absorb (key.drop (12 * Nat.succ b))) =
      fun r b => r.absorb ((key.drop 12).drop (12 * b)) := by
    funext r b
    rw [List.drop_drop, show 12 + 12 * b = 12 * Nat.succ b by omega]
  rw [absorbs, absorbs, List.range_succ_eq_map, List.foldl_cons, List.foldl_map, hshift,
    Nat.mul_zero, List.drop_zero]

/-- The loop reads the whole blocks, as long as the object has them. -/
theorem hashJenLoop_eq {fuel k : Nat} (hk : k ≤ fuel) (key : List UInt8) (r : Jen) :
    hashJenLoop fuel key k r =
      if 12 * (k / 12) ≤ key.length then
        some (key.drop (12 * (k / 12)), k % 12, r.absorbs (k / 12) key)
      else none := by
  induction fuel generalizing key k r with
  | zero =>
    obtain rfl : k = 0 := by omega
    simp [hashJenLoop, Jen.absorbs]
  | succ fuel ih =>
    by_cases h12 : 12 ≤ k
    · -- one more block and the blocks behind it
      have hdiv : k / 12 = (k - 12) / 12 + 1 := by omega
      have hmod : (k - 12) % 12 = k % 12 := by omega
      rw [hashJenLoop, if_pos h12, keyWord_eq key 0, keyWord_eq key 1, keyWord_eq key 2]
      by_cases hlen : 12 ≤ key.length
      · have habsorb : hashJenMix ⟨r.i + blockWord key 0, r.j + blockWord key 1,
            r.hashv + blockWord key 2⟩ = r.absorb key := rfl
        rw [if_pos (by omega), if_pos (by omega), if_pos (by omega)]
        simp only [Option.bind_eq_bind, Option.bind_some]
        rw [habsorb, ih (by omega), hdiv, Jen.absorbs_succ, List.drop_drop, List.length_drop, hmod]
        congr 1
        · exact propext (by omega)
        · congr 3
          omega
      · rw [if_neg (show ¬ 12 * (k / 12) ≤ key.length by omega)]
        simp [hlen]
    · have hdiv : k / 12 = 0 := by omega
      rw [hashJenLoop, if_neg h12, hdiv, Nat.mod_eq_of_lt (by omega)]
      simp [Jen.absorbs]

/-- The cases of the `switch` read the rest of the key, as long as the object has it. -/
theorem hashJenSwitch_eq {n : Nat} (hn : n < 12) (key : List UInt8) (r : Jen) (len : Nat) :
    hashJenSwitch key n { r with hashv := r.hashv + UInt32.ofNat len } =
      if n ≤ key.length then
        some ⟨r.i + blockWord (key.take n) 0, r.j + blockWord (key.take n) 1,
          r.hashv + UInt32.ofNat (len + 256 * ofBytes ((key.take n).drop 8))⟩
      else none := by
  split
  case isFalse h =>
    -- the first case reads the last byte of the key
    obtain ⟨n, rfl⟩ : ∃ m, n = m + 1 := ⟨n - 1, by omega⟩
    rw [hashJenSwitch, keyByte_of_le (by omega)]
    rfl
  case isTrue h =>
    have hread : ∀ i < n, keyByte key i = some (key.getD i 0).toUInt32 :=
      fun i hi => keyByte_of_lt (by omega)
    have htake : ∀ i, (key.take n).getD i 0 = if i < n then key.getD i 0 else 0 := by
      intro i
      by_cases hi : i < n <;> simp [hi]
    have hdrop : ∀ i, ((key.take n).drop 8).getD i 0 =
        if 8 + i < n then key.getD (8 + i) 0 else 0 := by
      intro i
      rw [← htake]
      simp
    rw [blockWord_eq, blockWord_eq, ofNat_last _ _ (by simp; omega)]
    simp only [htake, hdrop]
    clear htake hdrop
    -- one goal for each case to start from
    interval_cases n
    all_goals simp [hashJenSwitch, hashJenCase, hread]
    -- the code adds the last byte first
    all_goals grind

theorem Jen.absorbs_congr {key key' : List UInt8} (r : Jen) {m : Nat}
    (h : key.take (12 * m) = key'.take (12 * m)) : r.absorbs m key = r.absorbs m key' := by
  induction m generalizing key key' r with
  | zero => simp [absorbs]
  | succ m ih =>
    have hblock : key.take 12 = key'.take 12 := by
      have := congrArg (List.take 12) h
      simpa [List.take_take] using this
    have hrest : (key.drop 12).take (12 * m) = (key'.drop 12).take (12 * m) := by
      have := congrArg (List.drop 12) h
      simpa [List.drop_take, Nat.mul_succ] using this
    -- the words of the first block agree
    have hword : ∀ n < 3, blockWord key n = blockWord key' n := by
      intro n hn
      have := congrArg (fun bs => (bs.drop (4 * n)).take 4) hblock
      simp only [List.drop_take, List.take_take, show min 4 (12 - 4 * n) = 4 by omega] at this
      rw [blockWord, blockWord, this]
    rw [Jen.absorbs_succ, Jen.absorbs_succ, ih _ hrest, Jen.absorb, Jen.absorb,
      hword 0 (by omega), hword 1 (by omega), hword 2 (by omega)]

/-- `HASH_JEN` is the hash of the blocks of the key, if all its bytes can be read. It reads
as many as an `unsigned` makes of `keylen`, and if the object is shorter it reads past its
end. -/
theorem hashJen_eq (key : List UInt8) (keylen : Nat) :
    hashJen key keylen =
      if uint32 keylen ≤ key.length then some (jenkins (key.take (uint32 keylen)))
      else none := by
  set k := uint32 keylen with hk
  have hofNat : UInt32.ofNat keylen = UInt32.ofNat k := (UInt32.ofNat_mod_size).symm
  rw [hashJen, ← hk, hashJenLoop_eq (Nat.le_refl k), hofNat]
  -- the loop reads the whole blocks, the switch the rest
  by_cases hblocks : 12 * (k / 12) ≤ key.length
  · rw [if_pos hblocks]
    simp only [Option.bind_eq_bind, Option.bind_some]
    rw [hashJenSwitch_eq (Nat.mod_lt k (by decide)), List.length_drop]
    by_cases hlen : k ≤ key.length
    · rw [if_pos (by omega), if_pos hlen]
      have hrest :
          (key.drop (12 * (k / 12))).take (k % 12) = (key.take k).drop (12 * (k / 12)) := by
        rw [List.drop_take, show k - 12 * (k / 12) = k % 12 by omega]
      have habsorbs : Jen.start.absorbs (k / 12) key = Jen.start.absorbs (k / 12) (key.take k) :=
        Jen.absorbs_congr _ (by rw [List.take_take, Nat.min_eq_left (by omega)])
      rw [hrest, habsorbs, jenkins, List.length_take, Nat.min_eq_left hlen]
      rfl
    · rw [if_neg (by omega), if_neg hlen]
      rfl
  · -- already a whole block goes past the end
    rw [if_neg hblocks, if_neg (by omega)]
    rfl

/-! ## What the mixing loses -/

/-- The steps of `hashJenMix` backwards. -/
def hashJenUnmix (r : Jen) : Jen :=
  let c := (r.hashv ^^^ (r.j >>> 15)) + r.j + r.i
  let b := (r.j ^^^ (r.i <<< 10)) + r.i + c
  let a := (r.i ^^^ (c >>> 3)) + c + b
  let c := (c ^^^ (b >>> 5)) + b + a
  let b := (b ^^^ (a <<< 16)) + a + c
  let a := (a ^^^ (c >>> 12)) + c + b
  let c := (c ^^^ (b >>> 13)) + b + a
  let b := (b ^^^ (a <<< 8)) + a + c
  let a := (a ^^^ (c >>> 13)) + c + b
  ⟨a, b, c⟩

theorem unmix_step (x y z w : UInt32) : (((x - y - z) ^^^ w) ^^^ w) + z + y = x := by
  rw [UInt32.xor_assoc, UInt32.xor_self, UInt32.xor_zero, UInt32.sub_add_cancel,
    UInt32.sub_add_cancel]

theorem unmix_mix (r : Jen) : hashJenUnmix (hashJenMix r) = r := by
  simp only [hashJenMix, hashJenUnmix, unmix_step]

theorem hashJenMix_injective : Function.Injective hashJenMix :=
  Function.LeftInverse.injective unmix_mix

/-- A word below `2^32` comes back. -/
theorem ofNat_inj_of_lt {m n : Nat} (hm : m < 2 ^ 32) (hn : n < 2 ^ 32)
    (h : UInt32.ofNat m = UInt32.ofNat n) : m = n := by
  have hmod : m % 2 ^ 32 = n % 2 ^ 32 := congrArg UInt32.toNat h
  rwa [Nat.mod_eq_of_lt hm, Nat.mod_eq_of_lt hn] at hmod

theorem blockWord_inj {bs cs : List UInt8} {n : Nat} (hlen : bs.length = cs.length)
    (h : blockWord bs n = blockWord cs n) :
    (bs.drop (4 * n)).take 4 = (cs.drop (4 * n)).take 4 := by
  have hsmall : ∀ xs : List UInt8, ofBytes (xs.take 4) < 2 ^ 32 := fun xs =>
    (ofBytes_lt _).trans_le (Nat.pow_le_pow_right (by decide) (List.length_take_le 4 xs))
  exact ofBytes_inj (by simp [hlen]) (ofNat_inj_of_lt (hsmall _) (hsmall _) h)

/-- The last block can be told from the registers that it was added to and mixed with. -/
theorem Jen.finish_inj {r : Jen} {n : Nat} {bs cs : List UInt8} (hlen : bs.length = cs.length)
    (hshort : bs.length < 12) (h : r.finish n bs = r.finish n cs) : bs = cs := by
  obtain ⟨hi, hj, hhashv⟩ := Jen.mk.inj (hashJenMix_injective h)
  have h₀ := blockWord_inj hlen ((UInt32.add_right_inj _).mp hi)
  have h₁ := blockWord_inj hlen ((UInt32.add_right_inj _).mp hj)
  have h₂ : bs.drop 8 = cs.drop 8 := by
    -- at most three bytes, above the lowest
    have hsmall : ∀ xs : List UInt8, xs.length < 12 → 256 * ofBytes (xs.drop 8) < 2 ^ 32 := by
      intro xs hxs
      have hlt : ofBytes (xs.drop 8) < 256 ^ 3 :=
        (ofBytes_lt _).trans_le (Nat.pow_le_pow_right (by decide) (by simp; omega))
      omega
    rw [UInt32.add_right_inj, UInt32.ofNat_add, UInt32.ofNat_add, UInt32.add_right_inj] at hhashv
    have := ofNat_inj_of_lt (hsmall bs hshort) (hsmall cs (hlen ▸ hshort)) hhashv
    exact ofBytes_inj (by simp [hlen]) (by omega)
  have hsplit : ∀ xs : List UInt8, xs = xs.take 4 ++ ((xs.drop 4).take 4 ++ xs.drop 8) := by
    intro xs
    have hdrop : xs.drop 8 = (xs.drop 4).drop 4 := by rw [List.drop_drop]
    rw [hdrop, List.take_append_drop, List.take_append_drop]
  rw [hsplit bs, hsplit cs, h₁, h₂, show bs.take 4 = cs.take 4 from h₀]

/-- Keys of one length that are equal up to the last whole block, such as pointers,
leave different registers, unless they are equal. -/
theorem hashJen_separates {key key' : List UInt8} {keylen : Nat}
    (hk : uint32 keylen ≤ key.length) (hk' : uint32 keylen ≤ key'.length)
    (hblocks : key.take (12 * (uint32 keylen / 12)) = key'.take (12 * (uint32 keylen / 12)))
    (h : hashJen key keylen = hashJen key' keylen) :
    key.take (uint32 keylen) = key'.take (uint32 keylen) := by
  rw [hashJen_eq, hashJen_eq, if_pos hk, if_pos hk'] at h
  set k := uint32 keylen with hkdef
  have hlen : (key.take k).length = k := by simp [hk]
  have hlen' : (key'.take k).length = k := by simp [hk']
  have hwhole : (key.take k).take (12 * (k / 12)) = (key'.take k).take (12 * (k / 12)) := by
    rw [List.take_take, List.take_take, Nat.min_eq_left (by omega), hblocks]
  -- behind the whole blocks both are in one state
  have hfinish := Option.some.inj h
  simp only [jenkins, hlen, hlen'] at hfinish
  rw [Jen.absorbs_congr _ hwhole] at hfinish
  -- from there the last words can be read off the registers
  have hlast := Jen.finish_inj (by rw [List.length_drop, List.length_drop, hlen, hlen'])
    (by rw [List.length_drop, hlen]; omega) hfinish
  rw [← List.take_append_drop (12 * (k / 12)) (key.take k), hwhole, hlast,
    List.take_append_drop]

/-- The addresses of two neighbouring locks. -/
theorem hashJen_separates_pointers :
    hashJen (toBytes 8 0x7f0000001040) 8 ≠ hashJen (toBytes 8 0x7f0000001080) 8 := fun h =>
  absurd (hashJen_separates (by decide) (by decide) (by decide) h) (by decide)

end LockShield.Uthash

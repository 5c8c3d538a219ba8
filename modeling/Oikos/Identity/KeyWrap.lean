/-
AES key wrap: the rounds of the unwrapping undo the rounds of the wrapping from the last to
the first, so that wrapping is a bijection onto what can be unwrapped.
-/
import Oikos.Identity.DidComm
import Mathlib.Logic.Equiv.Basic

namespace Oikos.Identity.KeyWrap

open List

open DidComm

universe u v

/-- Steps that are undone one by one, from the last to the first. -/
theorem foldl_reverse_foldl {S : Type u} {A : Type v} {I : S → Prop} {f g : S → A → S} {as : List A}
    (hkeeps : ∀ a ∈ as, ∀ s, I s → I (f s a)) (hundo : ∀ a ∈ as, ∀ s, I s → g (f s a) a = s)
    {s : S} (hs : I s) : as.reverse.foldl g (as.foldl f s) = s := by
  induction as generalizing s with
  | nil => rfl
  | cons a as ih =>
    obtain ⟨hkeep, hkeeps⟩ := forall_mem_cons.mp hkeeps
    obtain ⟨hundone, hundo⟩ := forall_mem_cons.mp hundo
    rw [foldl_cons, reverse_cons, foldl_append, ih hkeeps hundo (hkeep s hs)]
    exact hundone s hs

theorem foldl_keeps {S : Type u} {A : Type v} {I : S → Prop} {f : S → A → S} {as : List A}
    (hkeeps : ∀ a ∈ as, ∀ s, I s → I (f s a)) {s : S} (hs : I s) : I (as.foldl f s) := by
  induction as generalizing s with
  | nil => exact hs
  | cons a as ih =>
    obtain ⟨hkeep, hkeeps⟩ := forall_mem_cons.mp hkeeps
    exact ih hkeeps (hkeep s hs)

/-! ### Wrapping -/

/-- The block cipher under a key, in both directions. -/
structure BlockCipher where
  encrypt : List UInt8 → List UInt8
  decrypt : List UInt8 → List UInt8

/-- Blocks of 16 bytes are permuted, and each direction undoes the other. -/
structure BlockCipher.Inverts (block : BlockCipher) : Prop where
  length_encrypt : ∀ b, b.length = 16 → (block.encrypt b).length = 16
  length_decrypt : ∀ b, b.length = 16 → (block.decrypt b).length = 16
  decrypt_encrypt : ∀ b, b.length = 16 → block.decrypt (block.encrypt b) = b
  encrypt_decrypt : ∀ b, b.length = 16 → block.encrypt (block.decrypt b) = b

/-- The first `n` blocks of eight bytes. -/
def blocksOf (n : Nat) (bytes : List UInt8) : List (List UInt8) :=
  (List.range n).map fun i => (bytes.drop (8 * i)).take 8

/-- The rounds of the wrapping of `n` blocks, each with its block and its counter. -/
def wrapRounds (n : Nat) : List (Nat × Nat) :=
  (List.range 6).flatMap fun j => (List.range n).map fun i => (i, n * j + i + 1)

/-- One round: the register and block `i` go through the cipher. -/
def wrapRound (encrypt : List UInt8 → List UInt8) (state : List UInt8 × List (List UInt8))
    (round : Nat × Nat) : List UInt8 × List (List UInt8) :=
  let (a, r) := state
  let (i, t) := round
  let buf := encrypt (a ++ r[i]?.getD [])
  (List.zipWith (· ^^^ ·) (buf.take 8) (bigEndian 8 t), r.set i (buf.drop 8))

section Calls

variable (newCipher : List UInt8 → Except String BlockCipher)

def aesKeyWrap (kek plaintext : List UInt8) : Except String (List UInt8) :=
  if plaintext.length < 16 ∨ plaintext.length % 8 ≠ 0 then
    .error "aes-kw: plaintext must be ≥16 bytes and a multiple of 8"
  else do
    let block ← newCipher kek
    let n := plaintext.length / 8
    let (a, r) := (wrapRounds n).foldl (wrapRound block.encrypt)
      (aesKWDefaultIV, blocksOf n plaintext)
    .ok (a ++ r.flatten)

/-- `aesKeyUnwrap` with a key of any size. -/
def aesKeyUnwrap (kek ciphertext : List UInt8) : Except String (List UInt8) :=
  if ciphertext.length < 24 ∨ ciphertext.length % 8 ≠ 0 then
    .error "aes-kw: ciphertext must be ≥24 bytes and a multiple of 8"
  else do
    let block ← newCipher kek
    let n := ciphertext.length / 8 - 1
    let (a, r) := (unwrapRounds n).foldl (unwrapRound block.decrypt)
      (ciphertext.take 8, blocksOf n (ciphertext.drop 8))
    if a ≠ aesKWDefaultIV then
      .error "aes-kw: integrity check failed — wrong key or corrupted ciphertext"
    else .ok r.flatten

/-- With the cipher of the key this is how the key of a recipient is unwrapped. -/
theorem aesKeyUnwrap_eq (p : Primitives) {kek : Key} {block : BlockCipher}
    (hnew : newCipher kek.bytes = .ok block) (hdecrypt : block.decrypt = p.aesDecrypt kek)
    (ciphertext : List UInt8) :
    aesKeyUnwrap newCipher kek.bytes ciphertext = DidComm.aesKeyUnwrap p kek ciphertext := by
  have hblocks : ∀ n, blocksOf n (ciphertext.drop 8) =
      (range n).map fun i => (ciphertext.drop (8 * (i + 1))).take 8 := by
    intro n
    refine map_congr_left fun i _ => ?_
    rw [drop_drop, Nat.mul_succ, add_comm]
  simp only [aesKeyUnwrap, DidComm.aesKeyUnwrap, hnew, ok_bind, hblocks, hdecrypt]

end Calls

/-! ### Blocks -/

section Blocks

variable {n : Nat} {bytes : List UInt8} {r : List (List UInt8)}

theorem blocksOf_succ : blocksOf (n + 1) bytes = bytes.take 8 :: blocksOf n (bytes.drop 8) := by
  rw [blocksOf, range_succ_eq_map, map_cons, map_map]
  refine congrArg₂ cons rfl (map_congr_left fun i _ => ?_)
  rw [Function.comp_apply, drop_drop, Nat.mul_succ, add_comm]

theorem length_blocksOf : (blocksOf n bytes).length = n := by
  rw [blocksOf, length_map, length_range]

theorem flatten_blocksOf (h : bytes.length = 8 * n) : (blocksOf n bytes).flatten = bytes := by
  induction n generalizing bytes with
  | zero => exact (length_eq_zero_iff.mp h).symm
  | succ n ih =>
    have hrest : (bytes.drop 8).length = 8 * n := by
      rw [length_drop, h]
      omega
    rw [blocksOf_succ, flatten_cons, ih hrest, take_append_drop]

theorem length_of_mem_blocksOf (h : bytes.length = 8 * n) :
    ∀ b ∈ blocksOf n bytes, b.length = 8 := by
  intro b hb
  obtain ⟨i, hi, rfl⟩ := mem_map.mp hb
  have hlt := mem_range.mp hi
  rw [length_take, length_drop, h]
  omega

theorem length_flatten (h : ∀ b ∈ r, b.length = 8) : r.flatten.length = 8 * r.length := by
  induction r with
  | nil => rfl
  | cons b r ih =>
    obtain ⟨hb, hr⟩ := forall_mem_cons.mp h
    rw [flatten_cons, length_append, ih hr, hb, length_cons]
    omega

theorem blocksOf_flatten (h : ∀ b ∈ r, b.length = 8) : blocksOf r.length r.flatten = r := by
  induction r with
  | nil => rfl
  | cons b r ih =>
    obtain ⟨hb, hr⟩ := forall_mem_cons.mp h
    rw [length_cons, blocksOf_succ, flatten_cons, take_left' hb, drop_left' hb,
      ih hr]

end Blocks

/-! ### Rounds -/

section Rounds

variable {block : BlockCipher} {n i t : Nat} {state : List UInt8 × List (List UInt8)}

@[simp] theorem length_bigEndian (w k : Nat) : (bigEndian w k).length = w := by
  induction w generalizing k with
  | zero => rfl
  | succ w ih => rw [bigEndian, length_append, ih, length_singleton]

theorem zipWith_xor_xor {as bs : List UInt8} (h : as.length ≤ bs.length) :
    zipWith (· ^^^ ·) (zipWith (· ^^^ ·) as bs) bs = as := by
  induction as generalizing bs with
  | nil => rfl
  | cons a as ih =>
    cases bs with
    | nil => simp at h
    | cons b bs =>
      rw [zipWith_cons_cons, zipWith_cons_cons, ih (by simpa using h), UInt8.xor_assoc,
        UInt8.xor_self, UInt8.xor_zero]

theorem unwrapRounds_eq (n : Nat) : unwrapRounds n = (wrapRounds n).reverse := by
  rw [unwrapRounds, wrapRounds, reverse_flatMap]
  refine congrArg (flatMap · _) (funext fun j => ?_)
  rw [Function.comp_apply, map_reverse]

theorem lt_of_mem_wrapRounds {round : Nat × Nat} (h : round ∈ wrapRounds n) : round.1 < n := by
  obtain ⟨j, _, h⟩ := mem_flatMap.mp h
  obtain ⟨i, hi, rfl⟩ := mem_map.mp h
  exact mem_range.mp hi

/-- A register of eight bytes and `n` blocks of eight bytes. -/
structure Sized (n : Nat) (state : List UInt8 × List (List UInt8)) : Prop where
  register : state.1.length = 8
  count : state.2.length = n
  blocks : ∀ b ∈ state.2, b.length = 8

theorem Sized.get (h : Sized n state) (hi : i < n) :
    ∃ b, state.2[i]? = some b ∧ b.length = 8 ∧ (state.1 ++ b).length = 16 := by
  have hlt : i < state.2.length := h.count.symm ▸ hi
  refine ⟨state.2[i], getElem?_eq_getElem hlt, h.blocks _ (getElem_mem hlt), ?_⟩
  rw [length_append, h.register, h.blocks _ (getElem_mem hlt)]

theorem sized_set {a b : List UInt8} (h : Sized n state) (ha : a.length = 8) (hb : b.length = 8) :
    Sized n (a, state.2.set i b) := by
  refine ⟨ha, by rw [length_set]; exact h.count, fun c hc => ?_⟩
  rcases mem_or_eq_of_mem_set hc with hc | rfl
  · exact h.blocks c hc
  · exact hb

theorem wrapRound_sized (hblock : block.Inverts) (hi : i < n) (h : Sized n state) :
    Sized n (wrapRound block.encrypt state (i, t)) := by
  obtain ⟨b, hget, _, hlen⟩ := h.get hi
  have hbuf := hblock.length_encrypt _ hlen
  refine sized_set h ?_ ?_
  · rw [hget, Option.getD_some, length_zipWith, length_take, hbuf, length_bigEndian]
    rfl
  · rw [hget, Option.getD_some, length_drop, hbuf]

theorem unwrapRound_sized (hblock : block.Inverts) (hi : i < n) (h : Sized n state) :
    Sized n (unwrapRound block.decrypt state (i, t)) := by
  obtain ⟨b, hget, hb, _⟩ := h.get hi
  have hbuf : (block.decrypt (zipWith (· ^^^ ·) state.1 (bigEndian 8 t) ++ b)).length =
    16 := by
    refine hblock.length_decrypt _ ?_
    rw [length_append, length_zipWith, h.register, length_bigEndian, hb]
    rfl
  refine sized_set h ?_ ?_
  · rw [hget, Option.getD_some, length_take, hbuf]
    rfl
  · rw [hget, Option.getD_some, length_drop, hbuf]

theorem unwrapRound_wrapRound (hblock : block.Inverts) (hi : i < n) (h : Sized n state) :
    unwrapRound block.decrypt (wrapRound block.encrypt state (i, t)) (i, t) = state := by
  obtain ⟨a, r⟩ := state
  obtain ⟨b, hget, _, hlen⟩ := h.get hi
  obtain ⟨hlt, hval⟩ := List.getElem?_eq_some_iff.mp hget
  have hset : r.set i b = r := by rw [← hval]; exact set_getElem_self hlt
  have htake : ((block.encrypt (a ++ b)).take 8).length ≤ (bigEndian 8 t).length := by
    rw [length_bigEndian, length_take]
    exact min_le_left _ _
  simp only [wrapRound, unwrapRound, hget, Option.getD_some, getElem?_set_self hlt]
  rw [zipWith_xor_xor htake, take_append_drop, hblock.decrypt_encrypt _ hlen,
    take_left' h.register, drop_left' h.register, set_set,
    hset]

theorem wrapRound_unwrapRound (hblock : block.Inverts) (hi : i < n) (h : Sized n state) :
    wrapRound block.encrypt (unwrapRound block.decrypt state (i, t)) (i, t) = state := by
  obtain ⟨a, r⟩ := state
  obtain ⟨b, hget, hb, _⟩ := h.get hi
  obtain ⟨hlt, hval⟩ := List.getElem?_eq_some_iff.mp hget
  have hset : r.set i b = r := by rw [← hval]; exact set_getElem_self hlt
  have hmixed : (zipWith (· ^^^ ·) a (bigEndian 8 t)).length = 8 := by
    rw [length_zipWith, h.register, length_bigEndian]
    rfl
  have hlen : (zipWith (· ^^^ ·) a (bigEndian 8 t) ++ b).length = 16 := by
    rw [length_append, hmixed, hb]
  have hle : a.length ≤ (bigEndian 8 t).length := by rw [h.register, length_bigEndian]
  simp only [wrapRound, unwrapRound, hget, Option.getD_some, getElem?_set_self hlt]
  rw [take_append_drop, hblock.encrypt_decrypt _ hlen, take_left' hmixed,
    drop_left' hmixed, zipWith_xor_xor hle, set_set, hset]

theorem foldl_unwrapRound (hblock : block.Inverts) (h : Sized n state) :
    (unwrapRounds n).foldl (unwrapRound block.decrypt)
      ((wrapRounds n).foldl (wrapRound block.encrypt) state) = state := by
  rw [unwrapRounds_eq]
  exact foldl_reverse_foldl (I := Sized n)
    (fun _ hround _ => wrapRound_sized hblock (lt_of_mem_wrapRounds hround))
    (fun _ hround _ => unwrapRound_wrapRound hblock (lt_of_mem_wrapRounds hround)) h

theorem foldl_wrapRound (hblock : block.Inverts) (h : Sized n state) :
    (wrapRounds n).foldl (wrapRound block.encrypt)
      ((unwrapRounds n).foldl (unwrapRound block.decrypt) state) = state := by
  have hmem : ∀ round ∈ unwrapRounds n, round.1 < n := by
    intro round hround
    rw [unwrapRounds_eq] at hround
    exact lt_of_mem_wrapRounds (mem_reverse.mp hround)
  rw [← reverse_reverse (wrapRounds n), ← unwrapRounds_eq]
  exact foldl_reverse_foldl (I := Sized n)
    (fun _ hround _ => unwrapRound_sized hblock (hmem _ hround))
    (fun _ hround _ => wrapRound_unwrapRound hblock (hmem _ hround)) h

theorem foldl_wrapRound_sized (hblock : block.Inverts) (h : Sized n state) :
    Sized n ((wrapRounds n).foldl (wrapRound block.encrypt) state) :=
  foldl_keeps (fun _ hround _ => wrapRound_sized hblock (lt_of_mem_wrapRounds hround)) h

theorem foldl_unwrapRound_sized (hblock : block.Inverts) (h : Sized n state) :
    Sized n ((unwrapRounds n).foldl (unwrapRound block.decrypt) state) := by
  rw [unwrapRounds_eq]
  refine foldl_keeps (fun _ hround _ => unwrapRound_sized hblock ?_) h
  exact lt_of_mem_wrapRounds (mem_reverse.mp hround)

end Rounds

/-! ### The bijection -/

section Bijection

variable {newCipher : List UInt8 → Except String BlockCipher} {block : BlockCipher}
  {kek plaintext ciphertext : List UInt8}

theorem sized_blocksOf {n : Nat} {a bytes : List UInt8} (ha : a.length = 8)
    (hbytes : bytes.length = 8 * n) : Sized n (a, blocksOf n bytes) :=
  ⟨ha, length_blocksOf, length_of_mem_blocksOf hbytes⟩

theorem unwrap_wrap (hnew : newCipher kek = .ok block) (hblock : block.Inverts)
    (hlen : 16 ≤ plaintext.length) (hmod : plaintext.length % 8 = 0) :
    ∃ wrapped, aesKeyWrap newCipher kek plaintext = .ok wrapped ∧
      aesKeyUnwrap newCipher kek wrapped = .ok plaintext := by
  obtain ⟨n, hn⟩ : ∃ n, plaintext.length = 8 * n := ⟨plaintext.length / 8, by omega⟩
  have hsized := sized_blocksOf (a := aesKWDefaultIV) rfl hn
  have hdone := foldl_wrapRound_sized hblock hsized
  have hundo := foldl_unwrapRound hblock hsized
  generalize hstate : (wrapRounds n).foldl (wrapRound block.encrypt)
    (aesKWDefaultIV, blocksOf n plaintext) = state at hdone hundo
  obtain ⟨a, r⟩ := state
  have hflat : r.flatten.length = 8 * n :=
    (length_flatten hdone.blocks).trans (congrArg (8 * ·) hdone.count)
  refine ⟨a ++ r.flatten, ?_, ?_⟩
  · rw [aesKeyWrap, if_neg (by omega), hnew, ok_bind]
    dsimp only
    rw [show plaintext.length / 8 = n by omega, hstate]
  · have htotal : (a ++ r.flatten).length = 8 + 8 * n := by
      rw [length_append, hdone.register, hflat]
    rw [aesKeyUnwrap, if_neg (by omega), hnew, ok_bind]
    dsimp only
    rw [show (a ++ r.flatten).length / 8 - 1 = n by omega, take_left' hdone.register,
      drop_left' hdone.register, ← hdone.count, blocksOf_flatten hdone.blocks,
      hdone.count, hundo]
    dsimp only
    rw [if_neg (not_not.mpr rfl), flatten_blocksOf hn]

theorem wrap_unwrap (hnew : newCipher kek = .ok block) (hblock : block.Inverts)
    (h : aesKeyUnwrap newCipher kek ciphertext = .ok plaintext) :
    16 ≤ plaintext.length ∧ plaintext.length % 8 = 0 ∧
      aesKeyWrap newCipher kek plaintext = .ok ciphertext := by
  unfold aesKeyUnwrap at h
  split at h
  · cases h
  · next hlen =>
    rw [hnew, ok_bind] at h
    dsimp only at h
    obtain ⟨n, hn⟩ : ∃ n, ciphertext.length = 8 + 8 * n := ⟨ciphertext.length / 8 - 1, by omega⟩
    rw [show ciphertext.length / 8 - 1 = n by omega] at h
    have hregister : (ciphertext.take 8).length = 8 := by
      rw [length_take]
      omega
    have hrest : (ciphertext.drop 8).length = 8 * n := by
      rw [length_drop]
      omega
    have hsized := sized_blocksOf hregister hrest
    have hdone := foldl_unwrapRound_sized hblock hsized
    have hundo := foldl_wrapRound hblock hsized
    generalize (unwrapRounds n).foldl (unwrapRound block.decrypt)
      (ciphertext.take 8, blocksOf n (ciphertext.drop 8)) = state at h hdone hundo
    obtain ⟨a, r⟩ := state
    dsimp only at h
    split at h
    · cases h
    · next ha =>
      obtain rfl : r.flatten = plaintext := Except.ok.inj h
      obtain rfl : a = aesKWDefaultIV := not_not.mp ha
      have hflat : r.flatten.length = 8 * n :=
        (length_flatten hdone.blocks).trans (congrArg (8 * ·) hdone.count)
      refine ⟨by omega, by omega, ?_⟩
      rw [aesKeyWrap, if_neg (by omega), hnew, ok_bind]
      dsimp only
      rw [show r.flatten.length / 8 = n by omega, ← hdone.count, blocksOf_flatten hdone.blocks,
        hdone.count, hundo]
      dsimp only
      rw [flatten_blocksOf hrest, take_append_drop]

end Bijection

/-- Wrapping is a bijection from the plaintexts that it accepts onto what can be unwrapped. -/
theorem aesKeyWrap_bijective (newCipher : List UInt8 → Except String BlockCipher) (kek : List UInt8)
    (block : BlockCipher) (hnew : newCipher kek = .ok block) (hblock : block.Inverts) :
    (∀ plaintext : List UInt8, 16 ≤ plaintext.length → plaintext.length % 8 = 0 →
      ∃ wrapped, aesKeyWrap newCipher kek plaintext = .ok wrapped ∧
        aesKeyUnwrap newCipher kek wrapped = .ok plaintext) ∧
      ∀ ciphertext plaintext, aesKeyUnwrap newCipher kek ciphertext = .ok plaintext →
        16 ≤ plaintext.length ∧ plaintext.length % 8 = 0 ∧
          aesKeyWrap newCipher kek plaintext = .ok ciphertext :=
  ⟨fun _ => unwrap_wrap hnew hblock, fun _ _ => wrap_unwrap hnew hblock⟩

def exchange : List (List UInt8 × List UInt8) → Equiv.Perm (List UInt8)
  | [] => Equiv.refl _
  | (x, y) :: pairs => (Equiv.swap x y).trans (exchange pairs)

theorem length_exchange {pairs : List (List UInt8 × List UInt8)}
    (h : ∀ p ∈ pairs, p.1.length = p.2.length) (b : List UInt8) :
    (exchange pairs b).length = b.length := by
  induction pairs generalizing b with
  | nil => rfl
  | cons p pairs ih =>
    obtain ⟨hp, hpairs⟩ := forall_mem_cons.mp h
    rw [exchange, Equiv.trans_apply, ih hpairs, Equiv.swap_apply_def]
    split
    · next hb => rw [hb, hp]
    · split
      · next hb => rw [hb, hp]
      · rfl

theorem inverts_exchange {pairs : List (List UInt8 × List UInt8)}
    (h : ∀ p ∈ pairs, p.1.length = p.2.length) :
    BlockCipher.Inverts ⟨exchange pairs, (exchange pairs).symm⟩ where
  length_encrypt b hb := (length_exchange h b).trans hb
  length_decrypt b hb := by
    rw [← length_exchange h, Equiv.apply_symm_apply]
    exact hb
  decrypt_encrypt b _ := Equiv.symm_apply_apply _ b
  encrypt_decrypt b _ := Equiv.apply_symm_apply _ b

def testKey : List UInt8 :=
  bigEndian 16 0x000102030405060708090a0b0c0d0e0f

/-- What AES makes of some blocks under the test key. -/
def testBlocks : List (List UInt8 × List UInt8) :=
  [(0xa6a6a6a6a6a6a6a60011223344556677, 0xf4740052e82a225174ce86fbd7b805e7),
    (0xf4740052e82a22508899aabbccddeeff, 0x06ba4ebde7768d0bd132ee38147e76f8),
    (0x06ba4ebde7768d0974ce86fbd7b805e7, 0xfc967627be937208fe6e8d679c5d3460),
    (0xfc967627be93720bd132ee38147e76f8, 0x5896ea9028ee203b07b2bd973e36a6fc),
    (0x5896ea9028ee203ffe6e8d679c5d3460, 0x93aea71b258d90c325f5a3adc2195401),
    (0x93aea71b258d90c607b2bd973e36a6fc, 0xe3ee986344d878f7f14863bb1e9ca90a),
    (0xe3ee986344d878f125f5a3adc2195401, 0x2bfc21b2c20e4006b556d35ed8cef052),
    (0x2bfc21b2c20e4001f14863bb1e9ca90a, 0x4be8ce99c0a43a7d64bae5818d0570bb),
    (0x4be8ce99c0a43a75b556d35ed8cef052, 0xebe1ce91067024f3be114b343eb00981),
    (0xebe1ce91067024fa64bae5818d0570bb, 0x5a9c7b1f5b1c3b464fd3d2b7d74fbb42),
    (0x5a9c7b1f5b1c3b4cbe114b343eb00981, 0x93b71967eed41ffcaef34bd8fb5a7b82),
    (0x93b71967eed41ff74fd3d2b7d74fbb42, 0x1fa68b0a8112b44b9d3e862371d2cfe5)].map
      fun p : Nat × Nat => (bigEndian 16 p.1, bigEndian 16 p.2)

def newTestCipher (kek : List UInt8) : Except String BlockCipher :=
  if kek = testKey then .ok ⟨exchange testBlocks, (exchange testBlocks).symm⟩
  else .error s!"crypto/aes: invalid key size {kek.length}"

/-- The key of 128 bits that RFC 3394 wraps first. -/
theorem aesKeyWrap_bijective_test :
    (∃ wrapped, aesKeyWrap newTestCipher testKey (bigEndian 16 0x00112233445566778899aabbccddeeff) =
        .ok wrapped ∧
      aesKeyUnwrap newTestCipher testKey wrapped =
        .ok (bigEndian 16 0x00112233445566778899aabbccddeeff)) ∧
      aesKeyWrap newTestCipher testKey (bigEndian 16 0x00112233445566778899aabbccddeeff) =
        .ok (bigEndian 24 0x1fa68b0a8112b447aef34bd8fb5a7b829d3e862371d2cfe5) :=
  ⟨(aesKeyWrap_bijective newTestCipher testKey _ (if_pos rfl)
    (inverts_exchange (by decide +kernel))).1 _ (by decide) (by decide), by decide +kernel⟩

end Oikos.Identity.KeyWrap

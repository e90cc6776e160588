import Revoq.JoinIdentity
import Revoq.WordMixing

/-! # Journals that are told apart

`Location::uid` is a hash of four bytes a round.  Two names of one length that differ
within a single round never collide: whatever else the hash does to them can be undone.
Journals that are numbered, or named by a short code, at one place in their names are so
told apart by `join` and `disjoin`.
-/
namespace Revoq
open WordMixing

/-! ## One round of the hash -/

theorem toBitVec_shiftRight (x : UInt32) {n : Nat} (hn : n < 32) :
    (x >>> UInt32.ofNat n).toBitVec = x.toBitVec >>> n := by
  rw [UInt32.toBitVec_shiftRight, BitVec.ushiftRight_eq']
  congr 1
  simp
  omega

theorem toBitVec_shiftLeft (x : UInt32) {n : Nat} (hn : n < 32) :
    (x <<< UInt32.ofNat n).toBitVec = x.toBitVec <<< n := by
  rw [UInt32.toBitVec_shiftLeft, BitVec.shiftLeft_eq']
  congr 1
  simp
  omega

theorem rotl32_injective {n : Nat} (hpos : 0 < n) (hn : n < 32) :
    Function.Injective fun x => rotl32 x (UInt32.ofNat n) := by
  have hsub : 32 - UInt32.ofNat n = UInt32.ofNat (32 - n) := by
    rw [UInt32.ofNat_sub (by omega)]
    rfl
  have hrot : ∀ x, (rotl32 x (UInt32.ofNat n)).toBitVec = x.toBitVec.rotateLeft n := fun x => by
    rw [rotl32, hsub, UInt32.toBitVec_or, toBitVec_shiftLeft x hn, toBitVec_shiftRight x (by omega),
      BitVec.rotateLeft_def, Nat.mod_eq_of_lt hn]
  intro x y h
  have hbits := congrArg UInt32.toBitVec h
  rw [hrot, hrot] at hbits
  exact UInt32.toBitVec_inj.mp (rotateLeft_injective n hbits)

theorem xorShift32_injective {n : Nat} (hpos : 0 < n) (hn : n < 32) :
    Function.Injective fun x : UInt32 => x ^^^ (x >>> UInt32.ofNat n) := by
  intro x y h
  have hbits := congrArg UInt32.toBitVec h
  rw [UInt32.toBitVec_xor, UInt32.toBitVec_xor, toBitVec_shiftRight x hn,
    toBitVec_shiftRight y hn] at hbits
  exact UInt32.toBitVec_inj.mp (xorShift_injective hpos hbits)

theorem mul32_injective {c d : UInt32} (h : c * d = 1) :
    Function.Injective fun x : UInt32 => x * c := by
  intro x y hxy
  have hbits := congrArg UInt32.toBitVec hxy
  rw [UInt32.toBitVec_mul, UInt32.toBitVec_mul] at hbits
  exact UInt32.toBitVec_inj.mp (mul_injective (congrArg UInt32.toBitVec h) hbits)

theorem add32_injective (c : UInt32) : Function.Injective fun x : UInt32 => x + c :=
  fun _ _ h => (UInt32.add_left_inj c).mp h

theorem scramble_injective : Function.Injective scramble :=
  (mul32_injective (show (0x1b873593 : UInt32) * 0x56ed309b = 1 by decide)).comp
    ((rotl32_injective (show 0 < 15 by decide) (by decide)).comp
      (mul32_injective (show (0xcc9e2d51 : UInt32) * 0xdee13bb1 = 1 by decide)))

theorem fmix32_injective : Function.Injective fmix32 :=
  (xorShift32_injective (show 0 < 16 by decide) (by decide)).comp
    ((mul32_injective (show (0xc2b2ae35 : UInt32) * 0x7ed1b41d = 1 by decide)).comp
      ((xorShift32_injective (show 0 < 13 by decide) (by decide)).comp
        ((mul32_injective (show (0x85ebca6b : UInt32) * 0xa5cb9243 = 1 by decide)).comp
          (xorShift32_injective (show 0 < 16 by decide) (by decide)))))

/-- What a round makes of the hash so far, with the scrambled block in it. -/
theorem round_injective : Function.Injective fun h : UInt32 => rotl32 h 13 * 5 + 0xe6546b64 :=
  (add32_injective 0xe6546b64).comp
  ((mul32_injective (show (5 : UInt32) * 0xcccccccd = 1 by decide)).comp
    (rotl32_injective (show 0 < 13 by decide) (by decide)))

/-! ## Blocks -/

/-- Four bytes as a word, the first one lowest. -/
def littleEndian (a b c d : UInt8) : UInt32 :=
  a.toUInt32 ||| (b.toUInt32 <<< 8) ||| (c.toUInt32 <<< 16) ||| (d.toUInt32 <<< 24)

/-- The bits of a byte at a place in a word. -/
theorem getLsbD_byte (a : UInt8) {k : Nat} (hk : k < 4) {j i : Nat} (hi : i < 8) :
    (a.toUInt32 <<< UInt32.ofNat (8 * k)).toBitVec.getLsbD (8 * j + i) =
      (decide (j = k) && a.toBitVec.getLsbD i) := by
  rw [toBitVec_shiftLeft _ (by omega), BitVec.getLsbD_shiftLeft, UInt8.toBitVec_toUInt32,
    BitVec.getLsbD_setWidth]
  by_cases hjk : j = k
  · subst hjk
    have hback : 8 * j + i - 8 * j = i := by omega
    simp [hback, show ¬8 * j + i < 8 * j by omega, show 8 * j + i < 32 by omega,
      show i < 32 by omega]
  · by_cases hlt : 8 * j + i < 8 * k
    · simp [hjk, hlt]
    · simp [hjk, BitVec.getLsbD_of_ge a.toBitVec (8 * j + i - 8 * k) (by omega)]

theorem getLsbD_first (a : UInt8) {j i : Nat} (hi : i < 8) :
    a.toUInt32.toBitVec.getLsbD (8 * j + i) = (decide (j = 0) && a.toBitVec.getLsbD i) := by
  rw [← getLsbD_byte a (show 0 < 4 by decide) hi]
  simp

theorem getLsbD_littleEndian (a b c d : UInt8) {j i : Nat} (hi : i < 8) :
    (littleEndian a b c d).toBitVec.getLsbD (8 * j + i) =
      (decide (j = 0) && a.toBitVec.getLsbD i || decide (j = 1) && b.toBitVec.getLsbD i ||
        decide (j = 2) && c.toBitVec.getLsbD i || decide (j = 3) && d.toBitVec.getLsbD i) := by
  rw [littleEndian, UInt32.toBitVec_or, UInt32.toBitVec_or, UInt32.toBitVec_or, BitVec.getLsbD_or,
    BitVec.getLsbD_or, BitVec.getLsbD_or, getLsbD_first a hi,
    show (8 : UInt32) = UInt32.ofNat (8 * 1) from rfl,
        show (16 : UInt32) = UInt32.ofNat (8 * 2) from rfl,
    show (24 : UInt32) = UInt32.ofNat (8 * 3) from rfl, getLsbD_byte b (by decide) hi,
    getLsbD_byte c (by decide) hi, getLsbD_byte d (by decide) hi]

theorem littleEndian_injective {a b c d a' b' c' d' : UInt8}
    (h : littleEndian a b c d = littleEndian a' b' c' d') : a = a' ∧ b = b' ∧ c = c' ∧ d = d' := by
  have hbit : ∀ j i, i < 8 → _ := fun j i hi =>
    (getLsbD_littleEndian a b c d (j := j) hi).symm.trans
      ((congrArg (fun k : UInt32 => k.toBitVec.getLsbD (8 * j + i)) h).trans
        (getLsbD_littleEndian a' b' c' d' hi))
  have hbyte : ∀ x y : UInt8, (∀ i, i < 8 → x.toBitVec.getLsbD i = y.toBitVec.getLsbD i) → x = y :=
    fun x y hxy => UInt8.toBitVec_inj.mp (BitVec.eq_of_getLsbD_eq hxy)
  refine ⟨hbyte a a' fun i hi => ?_, hbyte b b' fun i hi => ?_, hbyte c c' fun i hi => ?_,
    hbyte d d' fun i hi => ?_⟩
  · simpa using hbit 0 i hi
  · simpa using hbit 1 i hi
  · simpa using hbit 2 i hi
  · simpa using hbit 3 i hi

/-- A tail is a block that is filled up with zeros. -/
theorem tail_eq (a b c : UInt8) :
    (c.toUInt32 <<< 16) ^^^ (b.toUInt32 <<< 8) ^^^ a.toUInt32 = littleEndian a b c 0 := by
  refine UInt32.toBitVec_inj.mp (BitVec.eq_of_getLsbD_eq fun n _ => ?_)
  have hi : n % 8 < 8 := Nat.mod_lt _ (by decide)
  rw [show n = 8 * (n / 8) + n % 8 by omega, getLsbD_littleEndian a b c 0 hi, UInt32.toBitVec_xor,
    UInt32.toBitVec_xor, BitVec.getLsbD_xor, BitVec.getLsbD_xor, getLsbD_first a hi,
    show (8 : UInt32) = UInt32.ofNat (8 * 1) from rfl,
        show (16 : UInt32) = UInt32.ofNat (8 * 2) from rfl,
    getLsbD_byte b (by decide) hi, getLsbD_byte c (by decide) hi]
  by_cases h0 : n / 8 = 0
  · simp [h0]
  · by_cases h1 : n / 8 = 1
    · simp [h1]
    · simp [h0, h1]

/-! ## Two keys -/

theorem xor32_injective (c : UInt32) : Function.Injective fun x : UInt32 => x ^^^ c := by
  intro x y h
  have hback := congrArg (fun z : UInt32 => z ^^^ c) h
  simpa only [UInt32.xor_assoc, UInt32.xor_self, UInt32.xor_zero] using hback

theorem xorScramble_injective (c : UInt32) :
    Function.Injective fun k : UInt32 => c ^^^ scramble k := by
  intro x y h
  simp only [UInt32.xor_comm c] at h
  exact scramble_injective (xor32_injective c h)

theorem murmurBlocks_cons (a b c d : UInt8) (rest : List UInt8) (h : UInt32) :
    murmurBlocks (a :: b :: c :: d :: rest) h =
      murmurBlocks rest (rotl32 (h ^^^ scramble (littleEndian a b c d)) 13 * 5 + 0xe6546b64) := by
  delta murmurBlocks littleEndian
  rfl

/-- The blocks that follow, and the tail, do not make two different hashes equal again. -/
theorem murmurBlocks_injective (key : List UInt8) : Function.Injective (murmurBlocks key) := by
  have all : ∀ (h h' : UInt32), murmurBlocks key h = murmurBlocks key h' → h = h' := by
    intro h
    induction key, h using murmurBlocks.induct with
    | case1 a b c d rest h k ih =>
      intro h' heq
      rw [murmurBlocks_cons, murmurBlocks_cons] at heq
      exact xor32_injective _ (round_injective (ih _ heq))
    | case2 h a b c | case3 h a b | case4 h a => exact fun h' heq => xor32_injective _ heq
    | case5 h => exact fun h' heq => heq
  exact fun h h' heq => all h h' heq

theorem exists_block {key : List UInt8} (h : 4 ≤ key.length) :
    ∃ a b c d rest, key = a :: b :: c :: d :: rest := by
  rcases key with _ | ⟨a, _ | ⟨b, _ | ⟨c, _ | ⟨d, rest⟩⟩⟩⟩
  · cases h
  · simp at h
  · simp at h
  · simp at h
  · exact ⟨a, b, c, d, rest, rfl⟩

/-- Different first blocks. -/
theorem murmurBlocks_cons_ne {a b c d a' b' c' d' : UInt8} (rest : List UInt8) (h : UInt32)
    (hne : ¬(a = a' ∧ b = b' ∧ c = c' ∧ d = d')) :
    murmurBlocks (a :: b :: c :: d :: rest) h ≠ murmurBlocks (a' :: b' :: c' :: d' :: rest) h := by
  rw [murmurBlocks_cons, murmurBlocks_cons]
  exact fun heq => hne (littleEndian_injective
    (xorScramble_injective h (round_injective (murmurBlocks_injective rest heq))))

/-- Different tails. -/
theorem murmurBlocks_tail_ne {a b c a' b' c' : UInt8} (h : UInt32)
    (hne : ¬(a = a' ∧ b = b' ∧ c = c')) :
    h ^^^ scramble (littleEndian a b c 0) ≠ h ^^^ scramble (littleEndian a' b' c' 0) := by
  intro heq
  obtain ⟨ha, hb, hc, -⟩ := littleEndian_injective (xorScramble_injective h heq)
  exact hne ⟨ha, hb, hc⟩

/-- Keys that are shorter than a block are tails. -/
theorem murmurBlocks_short {key : List UInt8} (h : UInt32) (hkey : key ≠ [])
    (hlen : key.length < 4) :
    murmurBlocks key h = h ^^^ scramble
      (littleEndian (key.getD 0 0) (key.getD 1 0) (key.getD 2 0) 0) := by
  rcases key with _ | ⟨a, _ | ⟨b, _ | ⟨c, _ | ⟨d, rest⟩⟩⟩⟩
  · exact absurd rfl hkey
  · have htail : a.toUInt32 = littleEndian a 0 0 0 := by simpa using tail_eq a 0 0
    exact congrArg (h ^^^ scramble ·) htail
  · have htail : (b.toUInt32 <<< 8) ^^^ a.toUInt32 = littleEndian a b 0 0 := by
      simpa using tail_eq a b 0
    exact congrArg (h ^^^ scramble ·) htail
  · exact congrArg (h ^^^ scramble ·) (tail_eq a b c)
  · simp only [List.length_cons] at hlen
    omega

theorem murmurBlocks_short_ne {key key' : List UInt8} (h : UInt32) (hlen : key.length = key'.length)
    (hshort : key.length < 4) (hne : key ≠ key') : murmurBlocks key h ≠ murmurBlocks key' h := by
  have hkey : key ≠ [] := fun hnil => by
    rw [hnil, List.length_nil] at hlen
    exact hne (hnil.trans (List.eq_nil_of_length_eq_zero hlen.symm).symm)
  have hkey' : key' ≠ [] := fun hnil => by
    rw [hnil, List.length_nil] at hlen
    exact hkey (List.eq_nil_of_length_eq_zero hlen)
  rw [murmurBlocks_short h hkey hshort, murmurBlocks_short h hkey' (hlen ▸ hshort)]
  refine murmurBlocks_tail_ne h fun hbytes => hne (List.ext_getElem hlen fun j hj hj' => ?_)
  obtain ⟨h0, h1, h2⟩ := hbytes
  have hget : ∀ k, key.getD k 0 = key'.getD k 0 → (hk : k < key.length) → (hk' : k < key'.length) →
      key[k] = key'[k] := fun k hk hlt hlt' => by
    simpa [List.getD, hlt, hlt'] using hk
  obtain rfl | rfl | rfl : j = 0 ∨ j = 1 ∨ j = 2 := by omega
  · exact hget 0 h0 hj hj'
  · exact hget 1 h1 hj hj'
  · exact hget 2 h2 hj hj'

/-- **A difference within one block of the key is not lost.** -/
theorem murmurBlocks_ne {key key' : List UInt8} {block : Nat} (h : UInt32)
    (hlen : key.length = key'.length) (hsame : ∀ j, j / 4 ≠ block → key[j]? = key'[j]?)
    (hne : key ≠ key') :
    murmurBlocks key h ≠ murmurBlocks key' h := by
  induction block generalizing key key' h with
  | zero =>
    by_cases hshort : key.length < 4
    · exact murmurBlocks_short_ne h hlen hshort hne
    · obtain ⟨a, b, c, d, rest, rfl⟩ := exists_block (Nat.le_of_not_lt hshort)
      obtain ⟨a', b', c', d', rest', rfl⟩ := exists_block (hlen ▸ Nat.le_of_not_lt hshort)
      have hrest : rest = rest' := List.ext_getElem? fun j => hsame (j + 4) (by omega)
      subst hrest
      exact murmurBlocks_cons_ne rest h fun hbytes => hne (by
        obtain ⟨rfl, rfl, rfl, rfl⟩ := hbytes
        rfl)
  | succ block ih =>
    by_cases hshort : key.length < 4
    · exact murmurBlocks_short_ne h hlen hshort hne
    · obtain ⟨a, b, c, d, rest, rfl⟩ := exists_block (Nat.le_of_not_lt hshort)
      obtain ⟨a', b', c', d', rest', rfl⟩ := exists_block (hlen ▸ Nat.le_of_not_lt hshort)
      cases hsame 0 (by omega)
      cases hsame 1 (by omega)
      cases hsame 2 (by omega)
      cases hsame 3 (by omega)
      rw [murmurBlocks_cons, murmurBlocks_cons]
      -- the first block is common, so the difference is one block nearer
      refine ih _ (by simpa using hlen) (fun j hj => hsame (j + 4) (by omega)) fun heq => hne ?_
      rw [heq]

/-- **Keys of one length that differ within one block have different hashes.** -/
theorem hashStr32_ne {key key' : List UInt8} {block : Nat} (hlen : key.length = key'.length)
    (hsame : ∀ j, j / 4 ≠ block → key[j]? = key'[j]?) (hne : key ≠ key') :
    hashStr32 key ≠ hashStr32 key' := by
  intro heq
  rw [hashStr32, hashStr32, hlen] at heq
  exact murmurBlocks_ne 0 hlen hsame hne (xor32_injective _ (fmix32_injective heq))

/-! ## Joining them -/

/-- The location a call is about. -/
def JoinCall.place : JoinCall → Place
  | .join l _ | .disjoin l => l

/-- Two names of one length that differ within one block of four bytes, or not at all. -/
def OneBlockApart (key key' : List UInt8) : Prop :=
  key.length = key'.length ∧ ∃ block, ∀ j, j / 4 ≠ block → key[j]? = key'[j]?

/-- Two locations under one home whose names the hash keeps apart. -/
structure ToldApart (l l' : Place) : Prop where
  home : pathElements l.home = pathElements l'.home
  uname : OneBlockApart l.uname l'.uname

theorem ToldApart.uid_iff {l l' : Place} (h : ToldApart l l') (hl : l.Plain) (hl' : l'.Plain) :
    l.uid = l'.uid ↔ l.SameDir l' := by
  obtain ⟨hlen, block, hsame⟩ := h.uname
  refine (hl.uid_iff_sameDir hl').mpr fun huid => ⟨h.home, ?_⟩
  by_contra hne
  exact hashStr32_ne hlen hsame hne huid

/-- A reader's journals were joined. -/
theorem JoinedJournals.mem_after {calls : List JoinCall} {x : Place × UInt32}
    (hx : x ∈ (JoinedJournals.after calls).journals) : JoinCall.join x.1 x.2 ∈ calls := by
  induction calls using List.reverseRecOn with
  | nil => cases hx
  | append_singleton calls c ih =>
    rw [JoinedJournals.after, List.foldl_append] at hx
    cases c with
    | join l destId =>
      simp only [List.foldl_cons, List.foldl_nil, JoinedJournals.exec] at hx
      split at hx
      · exact List.mem_append_left _ (ih hx)
      · rcases List.mem_append.mp hx with hx | hx
        · exact List.mem_append_left _ (ih hx)
        · cases List.mem_singleton.mp hx
          exact List.mem_append_right _ List.mem_cons_self
    | disjoin l =>
      rw [List.foldl_cons, List.foldl_nil, JoinedJournals.exec_disjoin_journals] at hx
      exact List.mem_append_left _ (ih (List.mem_of_mem_filter hx))

/-- **Numbered journals are joined by where they live.**  Keys of one length that differ
within one block have different hashes.  So, if the locations of some joins and disjoins
are all under one home, and any two of their names differ within one block at most, `join`
adds a journal exactly if none of the joined ones has its page files, and `disjoin` removes
only journals of its directory. -/
theorem numbered_journals (calls : List JoinCall) (hplain : ∀ c ∈ calls, c.place.Plain)
    (happart : ∀ c ∈ calls, ∀ c' ∈ calls, ToldApart c.place c'.place) :
    (∀ key key' : List UInt8, OneBlockApart key key' → key ≠ key' →
      hashStr32 key ≠ hashStr32 key') ∧
    ∀ before c later, calls = before ++ c :: later → (JoinedJournals.after before).ByPlace c := by
  refine ⟨fun key key' ⟨hlen, block, hsame⟩ hne => hashStr32_ne hlen hsame hne, ?_⟩
  intro before c later hcalls
  have hc : c ∈ calls := by
    rw [hcalls]
    exact List.mem_append_right _ List.mem_cons_self
  have huid : ∀ x ∈ (JoinedJournals.after before).journals,
      (x.1.uid = c.place.uid ↔ x.1.SameDir c.place) := by
    intro x hx
    have hbefore : JoinCall.join x.1 x.2 ∈ calls := by
      rw [hcalls]
      exact List.mem_append_left _ (JoinedJournals.mem_after hx)
    exact (happart _ hbefore c hc).uid_iff (hplain _ hbefore) (hplain c hc)
  rw [(JoinedJournals.keyed_after before).byPlace_iff]
  cases c with
  | join l destId => exact exists_congr fun x => and_congr_right fun hx =>
      and_congr_right fun _ => huid x hx
  | disjoin l => exact fun x hx hsame => (huid x hx).mp hsame

/-- A field of a name that lies within one block. -/
theorem OneBlockApart.of_field {pre field field' post : List UInt8} {block : Nat}
    (hlen : field.length = field'.length) (hfirst : 4 * block ≤ pre.length)
    (hlast : pre.length + field.length ≤ 4 * block + 4) :
    OneBlockApart (pre ++ (field ++ post)) (pre ++ (field' ++ post)) := by
  refine ⟨by simp [hlen], block, fun j hj => ?_⟩
  by_cases hpre : j < pre.length
  · rw [List.getElem?_append_left hpre, List.getElem?_append_left hpre]
  · by_cases hfield : j - pre.length < field.length
    · -- within the field, and so within the block
      exact absurd (show j / 4 = block by omega) hj
    · rw [List.getElem?_append_right (by omega), List.getElem?_append_right (by omega),
        List.getElem?_append_right (by omega), List.getElem?_append_right (by omega), hlen]

/-- A venue's feed with a two-digit number, which is bytes 20 and 21 of its name. -/
def numberedFeed (number : List UInt8) : Place :=
  ⟨.live, .marketdata, ascii "venue", ascii "btc" ++ number, ascii "/data"⟩

theorem numberedFeed_apart {number number' : List UInt8} (h : number.length = 2)
    (h' : number'.length = 2) :
    ToldApart (numberedFeed number) (numberedFeed number') := by
  have huname : ∀ n, (numberedFeed n).uname = ascii "marketdata/venue/btc" ++
      (n ++ ascii "/live") := fun _ => rfl
  refine ⟨rfl, ?_⟩
  rw [huname, huname]
  refine OneBlockApart.of_field (h.trans h'.symm) (show 4 * 5 ≤ _ by decide) ?_
  rw [h]
  decide

/-- The first two of three such feeds are joined when the third one is. -/
def threeFeeds : List JoinCall :=
  [.join (numberedFeed (ascii "01")) 0, .join (numberedFeed (ascii "02")) 0,
    .join (numberedFeed (ascii "99")) 0]

theorem threeFeeds_place {c : JoinCall} (h : c ∈ threeFeeds) :
    c.place.Plain ∧ ∃ number, number.length = 2 ∧ c.place = numberedFeed number := by
  simp only [threeFeeds, List.mem_cons, List.not_mem_nil, or_false] at h
  rcases h with rfl | rfl | rfl
  · exact ⟨⟨show IsName (ascii "venue") by decide, show IsName (ascii "btc01") by decide⟩, _, rfl,
      rfl⟩
  · exact ⟨⟨show IsName (ascii "venue") by decide, show IsName (ascii "btc02") by decide⟩, _, rfl,
      rfl⟩
  · exact ⟨⟨show IsName (ascii "venue") by decide, show IsName (ascii "btc99") by decide⟩, _, rfl,
      rfl⟩

theorem numbered_journals_three :
    hashStr32 (numberedFeed (ascii "01")).uname ≠ hashStr32 (numberedFeed (ascii "99")).uname ∧
      (JoinedJournals.after (threeFeeds.take 2)).ByPlace
        (.join (numberedFeed (ascii "99")) 0) := by
  have happart : ∀ c ∈ threeFeeds, ∀ c' ∈ threeFeeds, ToldApart c.place c'.place := by
    intro c hc c' hc'
    obtain ⟨-, n, hn, hplace⟩ := threeFeeds_place hc
    obtain ⟨-, n', hn', hplace'⟩ := threeFeeds_place hc'
    rw [hplace, hplace']
    exact numberedFeed_apart hn hn'
  obtain ⟨hhash, hjoins⟩ :=
    numbered_journals threeFeeds (fun c hc => (threeFeeds_place hc).1) happart
  exact ⟨hhash _ _ (numberedFeed_apart rfl rfl).uname (by decide), hjoins _ _ [] rfl⟩

end Revoq

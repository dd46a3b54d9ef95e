import PeerNet.Digest.Update
import PeerNet.Model.Lookup

/-
  Digests.

  `SHA1Final` pads what has been absorbed as the standard
  does, so a digest made in any pieces is the digest of the
  message, in both builds, whatever the context held before.
  Two messages with the same `shahash` are equal, or on the
  way to their digests `SHA1Guts` made the same of different
  inputs.

  Main declarations:
    * `digestOf`
    * `digest_of_pieces`
    * `builds_agree`
    * `shahash_eq`
    * `GutsCollide`
    * `shahash_collision`
    * `Env.hashing`
-/

------------------------------------------------------------
-- Padding
------------------------------------------------------------

namespace PeerNet

/- The bytes that fill the last blocks up. -/
theorem bytesToPad_eq
    {sc : SHA1Context}
    {message : Bytes}
    (hSc : Absorbed sc message) :
    sc.bytesToPad.toNat =
      1 + (119 - message.length % 64) % 64 := by
  have hBytes := hSc.bufferLength
  have hOpen := hSc.bufferLength_lt
  have hLeft :
      (120 - sc.bufferLength).toNat =
        120 - sc.bufferLength.toNat :=
    UInt32.toNat_sub_of_le _ _ (by
      rw [UInt32.le_iff_toNat_le]
      change _ ≤ 120
      omega)
  rw [SHA1Context.bytesToPad]
  split
  · next hTwo =>
      have hMore : 64 < 120 - sc.bufferLength.toNat := by
        rw [← hLeft]
        exact hTwo
      rw [UInt32.toNat_sub_of_le _ _ (by
        rw [UInt32.le_iff_toNat_le, hLeft]
        exact Nat.le_of_lt hMore), hLeft]
      change 120 - sc.bufferLength.toNat - 64 = _
      omega
  · next hOne =>
      have hFew : ¬ 64 < 120 - sc.bufferLength.toNat := by
        rw [← hLeft]
        exact hOne
      rw [hLeft]
      omega

theorem take_shaPadding
    {n : Nat}
    (hFew : n < 64) :
    shaPadding.take (1 + n) = 0x80 :: List.replicate n 0 := by
  rw [shaPadding, Nat.add_comm, List.take_succ_cons,
    List.take_replicate, Nat.min_eq_left (by omega)]

/- Both calls of `SHA1Final` together pad the message. -/
theorem Absorbed.padded
    {update :
      SHA1Context → Bytes → UInt32 → Option SHA1Context}
    {sc : SHA1Context}
    {message : Bytes}
    (hUpdate : Updates update)
    (hSc : Absorbed sc message) :
    ∃ sc1 sc2,
      update sc shaPadding sc.bytesToPad = some sc1 ∧
        update sc1 (longBytes (byteswap64 sc.totalLength)) 8 =
            some sc2 ∧
          sc2.state =
            Blocks.chain 64 Sha1.compress Sha1.init
              (Sha1.pad message) := by
  have hZeros : (119 - message.length % 64) % 64 < 64 :=
    Nat.mod_lt _ (by decide)
  have hPad := bytesToPad_eq hSc
  rcases (hUpdate sc message shaPadding sc.bytesToPad hSc).1
      (by
        rw [hPad]
        simp [shaPadding]
        omega) with
    ⟨sc1, hFirst, hAbsorbed1⟩
  have hLength :
      longBytes (byteswap64 sc.totalLength) =
        BigEndian.write 8 (8 * message.length) := by
    rw [longBytes_byteswap64, hSc.totalLength,
      UInt64.toNat_ofNat']
    exact BigEndian.write_mod 8 (8 * message.length)
  rw [hLength]
  rcases (hUpdate sc1 _
      (BigEndian.write 8 (8 * message.length)) 8
      hAbsorbed1).1 (by simp) with
    ⟨sc2, hSecond, hAbsorbed2⟩
  refine ⟨sc1, sc2, hFirst, hSecond, ?_⟩
  have hAll :
      message ++ shaPadding.take sc.bytesToPad.toNat ++
          (BigEndian.write 8 (8 * message.length)).take 8 =
        Sha1.pad message := by
    rw [hPad, take_shaPadding hZeros,
      List.take_of_length_le (by simp), List.append_assoc]
    rfl
  have hState := hAbsorbed2.absorbed
  rw [show UInt32.toNat 8 = 8 from rfl, hAll] at hState
  rw [Blocks.chain, hState]

end PeerNet

------------------------------------------------------------
-- Digests
------------------------------------------------------------

namespace PeerNet

theorem hash_toList
    (sc : SHA1Context) :
    sc.hash.toList =
      [sc.state.a, sc.state.b, sc.state.c, sc.state.d,
        sc.state.e] := by
  apply List.ext_getElem
  · simp
  · intro i hLeft hRight
    rw [Vector.getElem_toList]
    simp at hLeft
    interval_cases i <;> rfl

theorem toList_flatMap
    {α β : Type}
    {n m : Nat}
    (v : Vector α n)
    (f : α → Vector β m) :
    (v.flatMap f).toList =
      v.toList.flatMap fun a => (f a).toList := by
  rcases v with ⟨xs, rfl⟩
  rw [Vector.flatMap_mk, Vector.toList_mk,
    Array.toList_flatMap]
  rfl

theorem digest_toList
    (sc : SHA1Context) :
    (sc.hash.flatMap hashBytes).toList =
      Sha1.digest sc.state := by
  rw [toList_flatMap, hash_toList]
  simp [hashBytes_eq, Sha1.digest]

/- `SHA1Final`, of either build. -/
def Finals
    (final : SHA1Context → Option Hash) : Prop :=
  ∀ sc message,
    Absorbed sc message →
      ∃ hash,
        final sc = some hash ∧
          hash.toList = Sha1.hash message

theorem finals_plain :
    Finals sha1Final := by
  intro sc message hSc
  rcases hSc.padded updates_plain with
    ⟨sc1, sc2, hFirst, hSecond, hState⟩
  refine ⟨sc2.hash.flatMap hashBytes, ?_, ?_⟩
  · simp only [sha1Final, hFirst, hSecond,
      Option.bind_eq_bind, Option.bind_some]
  · exact (digest_toList sc2).trans
      (congrArg Sha1.digest hState)

theorem finals_fast :
    Finals sha1FinalFast := by
  intro sc message hSc
  rcases hSc.padded updates_fast with
    ⟨sc1, sc2, hFirst, hSecond, hState⟩
  refine ⟨sc2.hash.flatMap hashBytes, ?_, ?_⟩
  · simp only [sha1FinalFast, hFirst, hSecond,
      wordBytes_byteswap, Option.bind_eq_bind,
      Option.bind_some]
  · exact (digest_toList sc2).trans
      (congrArg Sha1.digest hState)

end PeerNet

------------------------------------------------------------
-- Messages in Pieces
------------------------------------------------------------

namespace PeerNet

/- A digest made with the functions of one build. -/
def digestOf
    (update :
      SHA1Context → Bytes → UInt32 → Option SHA1Context)
    (final : SHA1Context → Option Hash)
    (sc : SHA1Context)
    (calls : List (Bytes × UInt32)) : Option Hash := do
  let sc ←
    calls.foldlM (fun sc call => update sc call.1 call.2)
      (sha1Init sc)
  final sc

/- The bytes that calls hand over. -/
def handedOver
    (calls : List (Bytes × UInt32)) : Bytes :=
  calls.flatMap fun call => call.1.take call.2.toNat

/- The data has the bytes that the length promises. -/
def Covered
    (call : Bytes × UInt32) : Prop :=
  call.2.toNat ≤ call.1.length

instance
    (call : Bytes × UInt32) :
    Decidable (Covered call) :=
  inferInstanceAs (Decidable (_ ≤ _))

theorem foldlM_update
    {update :
      SHA1Context → Bytes → UInt32 → Option SHA1Context}
    (hUpdate : Updates update)
    (calls : List (Bytes × UInt32))
    {sc : SHA1Context}
    {message : Bytes}
    (hSc : Absorbed sc message) :
    ((∀ call ∈ calls, Covered call) →
      ∃ sc',
        calls.foldlM (fun sc call => update sc call.1 call.2)
            sc =
          some sc' ∧
          Absorbed sc' (message ++ handedOver calls)) ∧
    ((∃ call ∈ calls, ¬ Covered call) →
      calls.foldlM (fun sc call => update sc call.1 call.2)
          sc =
        none) := by
  induction calls generalizing sc message with
  | nil => simpa [handedOver] using hSc
  | cons call calls ih =>
      have hCall := hUpdate sc message call.1 call.2 hSc
      rw [List.foldlM_cons]
      by_cases hCovered : Covered call
      · rcases hCall.1 hCovered with ⟨sc', hSome, hNext⟩
        rw [hSome, Option.bind_eq_bind, Option.bind_some]
        refine ⟨fun hAll => ?_, fun hBad => (ih hNext).2 ?_⟩
        · rw [List.forall_mem_cons] at hAll
          rcases (ih hNext).1 hAll.2 with
            ⟨sc'', hRest, hAbsorbed⟩
          refine ⟨sc'', hRest, ?_⟩
          rw [List.append_assoc] at hAbsorbed
          exact hAbsorbed
        · rcases hBad with ⟨bad, hMem, hShort⟩
          rcases List.mem_cons.mp hMem with rfl | hMem
          · exact absurd hCovered hShort
          · exact ⟨bad, hMem, hShort⟩
      · rw [hCall.2 (Nat.lt_of_not_le hCovered)]
        refine ⟨fun hAll => ?_, fun _ => rfl⟩
        exact absurd (hAll call List.mem_cons_self) hCovered

theorem digestOf_spec
    {update :
      SHA1Context → Bytes → UInt32 → Option SHA1Context}
    {final : SHA1Context → Option Hash}
    (hUpdate : Updates update)
    (hFinal : Finals final)
    (sc : SHA1Context)
    (calls : List (Bytes × UInt32)) :
    ((∀ call ∈ calls, Covered call) →
      ∃ hash,
        digestOf update final sc calls = some hash ∧
          hash.toList = Sha1.hash (handedOver calls)) ∧
    ((∃ call ∈ calls, ¬ Covered call) →
      digestOf update final sc calls = none) := by
  have hFold := foldlM_update hUpdate calls (absorbed_init sc)
  rw [digestOf]
  refine ⟨fun hAll => ?_, fun hBad => ?_⟩
  · rcases hFold.1 hAll with ⟨sc', hSome, hAbsorbed⟩
    rw [hSome, Option.bind_eq_bind, Option.bind_some]
    exact hFinal sc' _ hAbsorbed
  · rw [hFold.2 hBad]
    rfl

/-
  A message handed over in pieces of any sizes has the digest
  of the standard, and nothing is copied behind the end of
  the buffer. Only a length that promises more bytes than
  there are reads behind the data.
-/
theorem digest_of_pieces
    (sc : SHA1Context)
    (calls : List (Bytes × UInt32)) :
    ((∀ call ∈ calls, Covered call) →
      ∃ hash,
        digestOf sha1Update sha1Final sc calls = some hash ∧
          hash.toList = Sha1.hash (handedOver calls)) ∧
    ((∃ call ∈ calls, ¬ Covered call) →
      digestOf sha1Update sha1Final sc calls = none) :=
  digestOf_spec updates_plain finals_plain sc calls

/- The build that avoids the copy makes the same digests. -/
theorem builds_agree
    (sc sc' : SHA1Context)
    (calls : List (Bytes × UInt32)) :
    digestOf sha1UpdateFast sha1FinalFast sc calls =
      digestOf sha1Update sha1Final sc' calls := by
  have hFast :=
    digestOf_spec updates_fast finals_fast sc calls
  have hPlain :=
    digestOf_spec updates_plain finals_plain sc' calls
  by_cases hAll : ∀ call ∈ calls, Covered call
  · rcases hFast.1 hAll with ⟨hash, hSome, hHash⟩
    rcases hPlain.1 hAll with ⟨hash', hSome', hHash'⟩
    rw [hSome, hSome',
      Vector.toList_inj.mp (hHash.trans hHash'.symm)]
  · simp only [not_forall, exists_prop] at hAll
    rw [hFast.2 hAll, hPlain.2 hAll]

end PeerNet

------------------------------------------------------------
-- Collisions
------------------------------------------------------------

namespace PeerNet

/- One call, as the chunk functions make it. -/
theorem shahash_eq
    (sha : SHA1Context)
    (str : Bytes)
    (hLength : str.length < 2 ^ 32) :
    ∃ hash,
      shahash sha str str.length = some hash ∧
        hash.toList = Sha1.hash str := by
  have hLen : (UInt32.ofInt str.length).toNat = str.length := by
    rw [UInt32.ofInt, Int.emod_eq_of_lt (by omega) (by omega)]
    simp
    omega
  rcases (updates_plain (sha1Init sha) [] str
      (UInt32.ofInt str.length) (absorbed_init sha)).1
      (Nat.le_of_eq hLen) with
    ⟨sc', hSome, hAbsorbed⟩
  rcases finals_plain sc' _ hAbsorbed with
    ⟨hash, hFinal, hHash⟩
  refine ⟨hash, ?_, ?_⟩
  · rw [shahash, hSome, Option.bind_eq_bind,
      Option.bind_some, hFinal]
  · rw [hHash, hLen, List.take_length, List.nil_append]

/- What one digest of the standard means for `shahash`. -/
theorem shahash_congr
    (sha sha' : SHA1Context)
    {str str' : Bytes}
    (hLength : str.length < 2 ^ 32)
    (hLength' : str'.length < 2 ^ 32)
    (hSame : Sha1.hash str = Sha1.hash str') :
    shahash sha str str.length =
      shahash sha' str' str'.length := by
  rcases shahash_eq sha str hLength with ⟨hash, hSome, hHash⟩
  rcases shahash_eq sha' str' hLength' with
    ⟨hash', hSome', hHash'⟩
  rw [hSome, hSome']
  apply congrArg some
  apply Vector.toList_inj.mp
  rw [hHash, hHash', hSame]

/- The context of a state, to run `SHA1Guts` on. -/
def contextOf
    (h : Sha1.State) : SHA1Context where
  totalLength := 0
  hash := #v[h.a, h.b, h.c, h.d, h.e]
  bufferLength := 0
  buffer := Vector.replicate 64 0

theorem state_contextOf
    (h : Sha1.State) :
    (contextOf h).state = h := by
  simp [contextOf, SHA1Context.state,
    SHA1Context.registers, Registers.state]

/- A context that has absorbed whole blocks. -/
def contextAfter
    (front : Bytes) : SHA1Context :=
  contextOf (Blocks.chain 64 Sha1.compress Sha1.init front)

/-
  On the way to the digests of two messages, `SHA1Guts` makes
  the same hash of different hashes and blocks. Behind these
  blocks the padded messages go on alike.
-/
structure CollideAt
    (front block front' block' : Bytes) : Prop where
  whole : front.length % 64 = 0
  whole' : front'.length % 64 = 0
  length : block.length = 64
  length' : block'.length = 64
  inputs :
    ((contextAfter front).hash, block) ≠
      ((contextAfter front').hash, block')
  outputs :
    (sha1Guts (contextAfter front) block).hash =
      (sha1Guts (contextAfter front') block').hash

def GutsCollide
    (str str' : Bytes) : Prop :=
  ∃ front block front' block' rest,
    Sha1.pad str = front ++ block ++ rest ∧
      Sha1.pad str' = front' ++ block' ++ rest ∧
        CollideAt front block front' block'

theorem collideAt_of_meetAt
    {front block front' block' : Bytes}
    (hMeet :
      Blocks.MeetAt 64 Sha1.compress Sha1.init front block
        front' block') :
    CollideAt front block front' block' where
  whole := hMeet.whole
  whole' := hMeet.whole'
  length := hMeet.length
  length' := hMeet.length'
  inputs := by
    intro hEqual
    rcases Prod.mk.inj hEqual with ⟨hHash, hBytes⟩
    apply hMeet.inputs
    have hState := state_congr hHash
    rw [contextAfter, contextAfter, state_contextOf,
      state_contextOf] at hState
    rw [hState, hBytes]
  outputs := by
    apply Vector.toList_inj.mp
    rw [hash_toList, hash_toList,
      sha1Guts_state _ (Nat.le_of_eq hMeet.length.symm),
      sha1Guts_state _ (Nat.le_of_eq hMeet.length'.symm),
      contextAfter, contextAfter, state_contextOf,
      state_contextOf, hMeet.outputs]

/- Messages with one digest of the standard. -/
theorem eq_or_gutsCollide
    (str str' : Bytes)
    (hLength : str.length < 2 ^ 32)
    (hLength' : str'.length < 2 ^ 32)
    (hSame : Sha1.hash str = Sha1.hash str') :
    str = str' ∨ GutsCollide str str' := by
  rcases Sha1.eq_or_meet (by omega) (by omega) hSame with
    hStr | ⟨front, block, front', block', rest, hPad, hPad',
      hMeet⟩
  · exact Or.inl hStr
  · exact Or.inr ⟨front, block, front', block', rest, hPad,
      hPad', collideAt_of_meetAt hMeet⟩

/-
  Different messages of the same hash collide on the way to
  it.
-/
theorem shahash_collision
    (sha sha' : SHA1Context)
    {str str' : Bytes}
    (hLength : str.length < 2 ^ 32)
    (hLength' : str'.length < 2 ^ 32)
    (hSame :
      shahash sha str str.length =
        shahash sha' str' str'.length) :
    str = str' ∨ GutsCollide str str' := by
  rcases shahash_eq sha str hLength with ⟨hash, hSome, hHash⟩
  rcases shahash_eq sha' str' hLength' with
    ⟨hash', hSome', hHash'⟩
  have hEqual : hash = hash' := by
    rw [hSome, hSome'] at hSame
    exact Option.some.inj hSame
  apply eq_or_gutsCollide str str' hLength hLength'
  rw [← hHash, ← hHash', hEqual]

/- Bytes of 32-bit words. -/
def bytesOf
    (words : List Nat) : Bytes :=
  words.flatMap (BigEndian.write 4)

/- Blocks, each with the state that it leaves. -/
abbrev GutsTrace :=
  List (Bytes × Sha1.State)

def GutsTrace.bytes
    (trace : GutsTrace) : Bytes :=
  trace.flatMap Prod.fst

def GutsTrace.last
    (trace : GutsTrace)
    (s : Sha1.State) : Sha1.State :=
  trace.foldl (fun _ step => step.2) s

/- `SHA1Guts` takes every block to the state beside it. -/
def GutsTrace.valid :
    GutsTrace → Sha1.State → Bool
| [], _ => true
| (block, t) :: rest, s =>
    block.length == 64 &&
      (sha1Guts (contextOf s) block).hash ==
        (contextOf t).hash &&
      GutsTrace.valid rest t

theorem GutsTrace.valid_append
    {before after : GutsTrace}
    {s : Sha1.State}
    (hBefore : before.valid s = true)
    (hAfter : after.valid (before.last s) = true) :
    GutsTrace.valid (before ++ after) s = true := by
  induction before generalizing s with
  | nil => exact hAfter
  | cons step rest ih =>
      rcases step with ⟨block, t⟩
      simp only [GutsTrace.valid, List.cons_append,
        Bool.and_eq_true] at hBefore ⊢
      exact ⟨hBefore.1, ih hBefore.2 hAfter⟩

theorem GutsTrace.chain_of_valid
    {trace : GutsTrace}
    {s : Sha1.State}
    (hValid : trace.valid s = true) :
    trace.bytes.length % 64 = 0 ∧
      Blocks.chain 64 Sha1.compress s trace.bytes =
        trace.last s := by
  induction trace generalizing s with
  | nil => exact ⟨rfl, rfl⟩
  | cons step rest ih =>
      rcases step with ⟨block, t⟩
      simp only [GutsTrace.valid, Bool.and_eq_true,
        beq_iff_eq] at hValid
      rcases hValid with ⟨⟨hBlock, hGuts⟩, hRest⟩
      rcases ih hRest with ⟨hWhole, hChain⟩
      have hNext : Sha1.compress s block = t := by
        have hState := state_congr hGuts
        rw [sha1Guts_state _ (Nat.le_of_eq hBlock.symm),
          state_contextOf, state_contextOf] at hState
        exact hState
      have hBytes :
          GutsTrace.bytes ((block, t) :: rest) =
            block ++ GutsTrace.bytes rest :=
        rfl
      rw [hBytes]
      constructor
      · rw [List.length_append]
        omega
      · rw [Blocks.chain_append (by decide)
            (by rw [hBlock]),
          Blocks.chain_block (by decide) hBlock, hNext,
          hChain]
        rfl

/- Three blocks, and two ways to go on, of two blocks each. -/
def commonBlocks : GutsTrace :=
  [(bytesOf
      [0x25504446, 0x2d312e33, 0x0a25e2e3, 0xcfd30a0a,
       0x0a312030, 0x206f626a, 0x0a3c3c2f, 0x57696474,
       0x68203220, 0x3020522f, 0x48656967, 0x68742033,
       0x20302052, 0x2f547970, 0x65203420, 0x3020522f],
     ⟨0x86d9d255, 0xe2214ecd, 0x4cca107e, 0xc732990e,
      0x044af3b4⟩),
   (bytesOf
      [0x53756274, 0x79706520, 0x35203020, 0x522f4669,
       0x6c746572, 0x20362030, 0x20522f43, 0x6f6c6f72,
       0x53706163, 0x65203720, 0x3020522f, 0x4c656e67,
       0x74682038, 0x20302052, 0x2f426974, 0x73506572],
     ⟨0x453012e6, 0x38524c1f, 0xeef312bd, 0x2561990c,
      0x22b0ae50⟩),
   (bytesOf
      [0x436f6d70, 0x6f6e656e, 0x7420383e, 0x3e0a7374,
       0x7265616d, 0x0affd8ff, 0xfe002453, 0x48412d31,
       0x20697320, 0x64656164, 0x21212121, 0x21852fec,
       0x09233975, 0x9c39b1a1, 0xc63c4c97, 0xe1fffe01],
     ⟨0x4ea96269, 0x7c876e26, 0x74d107f0, 0xfec67984,
      0x14f5bf45⟩)]

def oneEnd : GutsTrace :=
  [(bytesOf
      [0x7f46dc93, 0xa6b67e01, 0x3b029aaa, 0x1db2560b,
       0x45ca67d6, 0x88c7f84b, 0x8c4c791f, 0xe02b3df6,
       0x14f86db1, 0x690901c5, 0x6b45c153, 0x0afedfb7,
       0x6038e972, 0x722fe7ad, 0x728f0e49, 0x04e046c2],
     ⟨0x8d64d617, 0xffed5352, 0xebc85915, 0x5ec7eb34,
      0xf38a5a7b⟩),
   (bytesOf
      [0x30570fe9, 0xd41398ab, 0xe12ef5bc, 0x942be335,
       0x42a4802d, 0x98b5d70f, 0x2a332ec3, 0x7fac3514,
       0xe74ddc0f, 0x2cc1a874, 0xcd0c7830, 0x5a215664,
       0x61309789, 0x606bd0bf, 0x3f98cda8, 0x044629a1],
     ⟨0x1eacb25e, 0xd5970d10, 0xf1736963, 0x5771bc3a,
      0x17b48ac5⟩)]

def otherEnd : GutsTrace :=
  [(bytesOf
      [0x7346dc91, 0x66b67e11, 0x8f029ab6, 0x21b2560f,
       0xf9ca67cc, 0xa8c7f85b, 0xa84c7903, 0x0c2b3de2,
       0x18f86db3, 0xa90901d5, 0xdf45c14f, 0x26fedfb3,
       0xdc38e96a, 0xc22fe7bd, 0x728f0e45, 0xbce046d2],
     ⟨0x8d64c821, 0xffed52e2, 0xebc85915, 0x5ec7eb36,
      0x738a5a7b⟩),
   (bytesOf
      [0x3c570feb, 0x141398bb, 0x552ef5a0, 0xa82be331,
       0xfea48037, 0xb8b5d71f, 0x0e332edf, 0x93ac3500,
       0xeb4ddc0d, 0xecc1a864, 0x790c782c, 0x76215660,
       0xdd309791, 0xd06bd0af, 0x3f98cda4, 0xbc4629b1],
     ⟨0x1eacb25e, 0xd5970d10, 0xf1736963, 0x5771bc3a,
      0x17b48ac5⟩)]

/- Two messages that differ, and have one hash. -/
theorem shahash_collision_ends :
    GutsCollide (commonBlocks ++ oneEnd).bytes
      (commonBlocks ++ otherEnd).bytes := by
  have hDiffer :
      (commonBlocks ++ oneEnd).bytes ≠
        (commonBlocks ++ otherEnd).bytes := by
    decide +kernel
  have hCommon :
      GutsTrace.valid commonBlocks Sha1.init = true := by
    decide +kernel
  have hOneEnd :
      oneEnd.valid (commonBlocks.last Sha1.init) = true := by
    decide +kernel
  have hOtherEnd :
      otherEnd.valid (commonBlocks.last Sha1.init) =
        true := by
    decide +kernel
  have hOne := GutsTrace.chain_of_valid
    (GutsTrace.valid_append hCommon hOneEnd)
  have hOther := GutsTrace.chain_of_valid
    (GutsTrace.valid_append hCommon hOtherEnd)
  have hHash :
      Sha1.hash (commonBlocks ++ oneEnd).bytes =
        Sha1.hash (commonBlocks ++ otherEnd).bytes :=
    Sha1.hash_congr (by decide +kernel) hOne.1
      (hOne.2.trans hOther.2.symm)
  refine (shahash_collision (contextOf Sha1.init)
    (contextOf ⟨1, 2, 3, 4, 5⟩) (by decide +kernel)
    (by decide +kernel) ?_).resolve_left hDiffer
  exact shahash_congr _ _ (by decide +kernel)
    (by decide +kernel) hHash

end PeerNet

------------------------------------------------------------
-- Hashing Processes
------------------------------------------------------------

namespace PeerNet

/- The process hashes chunks with the functions of `sha.c`. -/
def Env.hashing
    (sha : SHA1Context)
    (env : Env) : Env :=
  { env with
    shahash := fun bytes =>
      (PeerNet.shahash sha bytes bytes.length).getD
        (Vector.replicate 20 0) }

/- What has the hash of published data is that data. -/
theorem eq_or_collide_of_hash
    {sha : SHA1Context}
    {env : Env}
    {hash : Hash}
    {bytes published : Bytes}
    (hLength : bytes.length ≤ btChunkSize)
    (hLength' : published.length ≤ btChunkSize)
    (hSame :
      hashEqual hash ((env.hashing sha).shahash bytes) = true)
    (hHash :
      shahash sha published published.length = some hash) :
    bytes = published ∨ GutsCollide bytes published := by
  have hChunkSize : btChunkSize = 524288 := rfl
  rcases shahash_eq sha bytes (by omega) with
    ⟨first, hIs, hDigest⟩
  rcases shahash_eq sha published (by omega) with
    ⟨second, hIs', hDigest'⟩
  have hSecond : second = hash :=
    Option.some.inj (hIs'.symm.trans hHash)
  have hFirst : hash = first := by
    have hEqual := of_decide_eq_true hSame
    unfold Env.hashing at hEqual
    dsimp only at hEqual
    rw [hIs] at hEqual
    exact hEqual
  apply eq_or_gutsCollide bytes published (by omega) (by omega)
  rw [← hDigest, ← hDigest', hSecond, hFirst]

/- A context of memory that was zero. -/
def zeroContext : SHA1Context :=
  contextOf ⟨0, 0, 0, 0, 0⟩

end PeerNet

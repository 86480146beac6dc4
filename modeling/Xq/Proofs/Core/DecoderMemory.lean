import Xq.Core.DecoderMemory
import Xq.Proofs.Core.DecodeCalls
import Xq.Proofs.Core.Delivery
import Xq.Proofs.Format.Exact

/-! When a decoder stays within its memory limit: the sums its checks leave out. -/

namespace Xq

open Lib

/-- The staging buffer an lze payload asks for: what its header announces, once that header has
passed the codec's own checks. -/
def lzeMidNeed (src : Bytes) : Nat :=
  match src with
  | [] => 0
  | mode :: inp =>
    if mode ≠ lzeModeHuff then 0
    else
      match lzeGetVarint inp with
      | none => 0
      | some (mlen, inp) =>
        if mlen.toNat > blockSizeMax + blockSizeMax / 255 + 64 then 0
        else if huffTableBytes > inp.length then 0
        else if (huffLoad (inp.take huffTableBytes)).isNone then 0
        else max 1 mlen.toNat

/-- How much a payload makes the staging buffer grow. -/
def Dctx.growth (dctx : Dctx) (codecId : UInt8) (payload : Bytes) : Nat :=
  match dctx with
  | .lze d => if codecId = lzeVt.id then lzeMidNeed payload - d.midCap else 0
  | _ => 0

theorem LzeDctx.reserve_midCap (d : LzeDctx) (need : Nat) :
    (d.reserve need).midCap = max d.midCap need := by
  -- A buffer that is large enough stays, and another takes its place otherwise.
  rw [LzeDctx.reserve]
  by_cases enough : d.midCap ≥ need
  · rw [if_pos enough, max_eq_left enough]
  · rw [if_neg enough, max_eq_right (Nat.le_of_not_le enough)]

theorem lzeDecompress_midCap (d : LzeDctx) (cap : Nat) (src : Bytes) (ddict : Option LzbDdict) :
    (lzeDecompress d cap src ddict).2.midCap = max d.midCap (lzeMidNeed src) := by
  -- The symbols that follow do not matter: the buffer is there before the first is decoded.
  cases src with
  | nil => exact (Nat.max_zero _).symm
  | cons mode inp =>
    rw [lzeDecompress, lzeMidNeed]
    by_cases raw : mode = lzeModeRaw
    · have other : mode ≠ lzeModeHuff := by
        rw [raw]
        decide
      rw [if_pos raw, if_pos other]
      exact (Nat.max_zero _).symm
    rw [if_neg raw]
    by_cases other : mode ≠ lzeModeHuff
    · rw [if_pos other, if_pos other]
      exact (Nat.max_zero _).symm
    rw [if_neg other, if_neg other]
    cases lzeGetVarint inp with
    | none => exact (Nat.max_zero _).symm
    | some announced =>
      obtain ⟨mlen, rest⟩ := announced
      dsimp only
      split
      · exact (Nat.max_zero _).symm
      split
      · exact (Nat.max_zero _).symm
      cases huffLoad (rest.take huffTableBytes) with
      | none => exact (Nat.max_zero _).symm
      | some dec =>
        have size : (if mlen.toNat ≠ 0 then mlen.toNat else 1) = max 1 mlen.toNat := by
          split
          · omega
          · omega
        dsimp only
        rw [size]
        have grown := d.reserve_midCap (max 1 mlen.toNat)
        cases lzeDecodeSymbols dec mlen.toNat (bitrInit (rest.drop huffTableBytes)) with
        | none => exact grown
        | some mid => exact grown

/-- In a build of the three codecs, a call leaves the context with what the payload asks for. -/
theorem codecGet_midCap {id : UInt8} {c : CodecVt} (found : codecGet none id = some c)
    (dctx : Dctx) (cap : Nat) (src : Bytes) (n : Nat) (ddict : Option Ddict) :
    (c.decompress dctx cap src n ddict).2.midCap = dctx.midCap + dctx.growth id src := by
  obtain rfl := codecGet_id found
  have listed : c ∈ codecs none := List.mem_of_find?_eq_some found
  simp only [codecs, Option.toList_none, List.append_nil, List.mem_cons, List.not_mem_nil,
    or_false] at listed
  -- Only lze keeps a buffer, and only in a context of its own.
  rcases listed with rfl | rfl | rfl
  · cases dctx
    all_goals rfl
  · cases dctx
    all_goals rfl
  · cases dctx with
    | lze d =>
      have grown := lzeDecompress_midCap d cap src (ddict.bind Ddict.asLzb)
      show (lzeDecompress d cap src (ddict.bind Ddict.asLzb)).2.midCap =
        d.midCap + (if lzeVt.id = lzeVt.id then lzeMidNeed src - d.midCap else 0)
      rw [grown, if_pos rfl]
      omega
    | null => rfl
    | zstd => rfl

/-- No codec but lze makes the buffer grow. -/
theorem Dctx.growth_other {id : UInt8} (other : id ≠ lzeVt.id) (dctx : Dctx) (payload : Bytes) :
    dctx.growth id payload = 0 := by
  -- The other contexts have no staging buffer.
  cases dctx with
  | lze d => exact if_neg other
  | null => rfl
  | zstd => rfl

theorem Dctx.growth_unknown {id : UInt8} (unknown : codecGet none id = none) (dctx : Dctx)
    (payload : Bytes) : dctx.growth id payload = 0 := by
  -- The id is not that of lze, which is listed.
  refine Dctx.growth_other (fun lze => ?_) dctx payload
  rw [lze] at unknown
  cases unknown

/-- The payload of a block that `next_block` hands to a codec. -/
def Decoder.codedPayload (d : Decoder) (b : BlockHeader) : Option Bytes :=
  if b.rawOffset ≠ d.rawOffset then none
  else if b.rawSize.toNat > d.rawCap then none
  else if b.storedSize.toNat > d.cbufCap then none
  else
    match d.io.readExact b.storedSize.toNat with
    | (.ok, payload, io) =>
      match if d.checksumLen ≠ 0 then io.readExact d.checksumLen else (.ok, [], io) with
      | (.ok, ck, _) =>
        if ¬ blockChecksumOk d.hdr payload ck then none
        else if b.bflags &&& bflagStored ≠ 0 then none
        else if b.bflags &&& bflagUsesDict ≠ 0 ∧ d.ddict.isNone then none
        else some payload
      | _ => none
    | _ => none

/-- What a block asks for: the growth of the staging buffer. -/
def Decoder.blockDemand (d : Decoder) (b : BlockHeader) : Nat :=
  match d.codedPayload b with
  | none => 0
  | some payload => d.dctx.growth b.codecId payload

/-- What a DICT record asks for: its payload, the dictionary, and the growth of the staging
buffer that decoding the dictionary takes. -/
def Decoder.dictDemand (d : Decoder) (rhdr : Bytes) (r : RecordHeader) : Nat :=
  if d.dictAdmitted r then
    r.size.toNat +
      match d.dictRead rhdr r with
      | none => 0
      | some (info, stored) => info.rawSize.toNat + d.dctx.growth info.storedCodec stored
  else 0

/-- What the section at the front of the stream asks for, beyond what is held already. -/
def Decoder.demand (d : Decoder) : Nat :=
  match d.front with
  | .dict e rhdr r => e.dictDemand rhdr r
  | .block e b => e.blockDemand b
  | .other => 0

/-- The context behind a payload step: grown by what a payload that reaches its codec asks for. -/
theorem blockPayload_midCap (dctx : Dctx) (ddict : Option Ddict) (cap : Nat) (b : BlockHeader)
    (payload : Bytes) : (blockPayload none dctx ddict cap b payload).dctx.midCap = dctx.midCap +
      if b.bflags &&& bflagStored ≠ 0 then 0
      else if b.bflags &&& bflagUsesDict ≠ 0 ∧ ddict.isNone then 0
      else dctx.growth b.codecId payload := by
  -- A stored payload, an unknown codec and a missing dictionary leave the context alone.
  rw [blockPayload]
  by_cases stored : b.bflags &&& bflagStored ≠ 0
  · rw [if_pos stored, if_pos stored]
    split
    · rfl
    · rfl
  rw [if_neg stored, if_neg stored]
  cases found : codecGet none b.codecId with
  | none =>
    rw [Dctx.growth_unknown found, ite_self]
    rfl
  | some c =>
    dsimp only
    by_cases missing : b.bflags &&& bflagUsesDict ≠ 0 ∧ ddict.isNone
    · rw [if_pos missing, if_pos missing]
      rfl
    · rw [if_neg missing, if_neg missing]
      exact codecGet_midCap found _ _ _ _ _

theorem Decoder.readBlock_midCap (d : Decoder) (b : BlockHeader) :
    (Decoder.readBlock none d b).2.dctx.midCap = d.dctx.midCap + d.blockDemand b := by
  -- Only a payload that is handed to a codec can change the context.
  rw [Decoder.blockDemand, Decoder.codedPayload, Decoder.readBlock]
  by_cases apart : b.rawOffset ≠ d.rawOffset
  · rw [if_pos apart, if_pos apart]
    rfl
  rw [if_neg apart, if_neg apart]
  by_cases large : b.rawSize.toNat > d.rawCap
  · rw [if_pos large, if_pos large]
    rfl
  rw [if_neg large, if_neg large]
  by_cases long : b.storedSize.toNat > d.cbufCap
  · rw [if_pos long, if_pos long]
    rfl
  rw [if_neg long, if_neg long]
  rcases d.io.readExact b.storedSize.toNat with ⟨st, payload, io⟩
  cases st
  case ok =>
    dsimp only
    -- The payload has been read; the checksum comes next.
    rcases if d.checksumLen ≠ 0 then io.readExact d.checksumLen else (.ok, [], io) with
      ⟨st, ck, io'⟩
    cases st
    case ok =>
      dsimp only
      by_cases bad : ¬ blockChecksumOk d.hdr payload ck
      · rw [if_pos bad, if_pos bad]
        rfl
      rw [if_neg bad, if_neg bad]
      have grown := blockPayload_midCap d.dctx d.ddict d.rawCap b payload
      have context : (Decoder.decodePayload none { d with io := io' } b payload).2.dctx =
          (blockPayload none d.dctx d.ddict d.rawCap b payload).dctx := by
        rw [Decoder.decodePayload]
        dsimp only
        split
        · rfl
        · rfl
      rw [context, grown]
      by_cases stored : b.bflags &&& bflagStored ≠ 0
      · rw [if_pos stored, if_pos stored]
      rw [if_neg stored, if_neg stored]
      by_cases missing : b.bflags &&& bflagUsesDict ≠ 0 ∧ d.ddict.isNone
      · rw [if_pos missing, if_pos missing]
      · rw [if_neg missing, if_neg missing]
    all_goals rfl
  all_goals rfl

/-- Decoding a dictionary grows the context by what its stored bytes ask for. -/
theorem dictDecode_midCap (dctx : Dctx) (info : DictInfo) (stored : Bytes) :
    (dictDecode none dctx info stored).1.2.midCap =
      dctx.midCap + dctx.growth info.storedCodec stored := by
  rw [dictDecode]
  by_cases plain : info.storedCodec = 0
  · -- A plain dictionary is copied without a codec.
    have other : info.storedCodec ≠ lzeVt.id := by
      rw [plain]
      decide
    rw [if_pos plain, Dctx.growth_other other]
    split
    · rfl
    · rfl
  rw [if_neg plain]
  cases found : codecGet none info.storedCodec with
  | none =>
    rw [Dctx.growth_unknown found]
    rfl
  | some c =>
    have grown := codecGet_midCap found dctx info.rawSize.toNat stored info.rawSize.toNat none
    dsimp only
    generalize c.decompress dctx info.rawSize.toNat stored info.rawSize.toNat none = result
      at grown ⊢
    obtain ⟨⟨st, raw⟩, after⟩ := result
    cases st
    case ok =>
      dsimp only
      split
      · exact grown
      · exact grown
    all_goals exact grown

/-- A dictionary either decodes to the size its header announces, or fails with an error. -/
theorem dictDecode_result {dctx after : Dctx} {info : DictInfo} {stored : Bytes}
    {result : Except XqStatus Bytes} {call : Option DecodeCall}
    (size : info.storedSize.toNat = stored.length)
    (decoded : dictDecode none dctx info stored = ((result, after), call)) :
    result ≠ .error .ok ∧ ∀ raw, result = .ok raw → raw.length = info.rawSize.toNat := by
  rw [dictDecode] at decoded
  by_cases plain : info.storedCodec = 0
  · -- A plain dictionary is taken in its announced size.
    rw [if_pos plain] at decoded
    by_cases differ : info.storedSize ≠ info.rawSize
    · rw [if_pos differ] at decoded
      cases decoded
      exact ⟨fun wrong => (by cases wrong), fun _ wrong => by cases wrong⟩
    · rw [if_neg differ] at decoded
      cases decoded
      refine ⟨fun wrong => (by cases wrong), fun raw same => ?_⟩
      obtain rfl := Except.ok.inj same
      rw [List.length_take, ← size, ← not_not.mp differ, min_self]
  rw [if_neg plain] at decoded
  cases found : codecGet none info.storedCodec with
  | none =>
    rw [found] at decoded
    cases decoded
    exact ⟨fun wrong => (by cases wrong), fun _ wrong => by cases wrong⟩
  | some c =>
    rw [found] at decoded
    dsimp only at decoded
    -- What a codec returns is compared with the announced size.
    generalize c.decompress dctx info.rawSize.toNat stored info.rawSize.toNat none = answer
      at decoded
    obtain ⟨⟨st, out⟩, context⟩ := answer
    cases st
    case ok =>
      dsimp only at decoded
      by_cases short : out.length ≠ info.rawSize.toNat
      · rw [if_pos short] at decoded
        cases decoded
        exact ⟨fun wrong => (by cases wrong), fun _ wrong => by cases wrong⟩
      · rw [if_neg short] at decoded
        cases decoded
        refine ⟨fun wrong => (by cases wrong), fun raw same => ?_⟩
        obtain rfl := Except.ok.inj same
        exact not_not.mp short
    all_goals
      cases decoded
      exact ⟨fun wrong => (by cases wrong), fun _ wrong => by cases wrong⟩

/-- A digest stands on the dictionary it was made of. -/
theorem dictDigest_size {codec : CodecVt} {id : UInt8} (found : codecGet none id = some codec)
    {info : DictInfo} {raw : Bytes} {ddict : Ddict}
    (digested : dictDigest codec info raw = .ok ddict) : ddict.size = raw.length := by
  -- The stored codec makes no digest, the two others keep the bytes.
  have listed : codec ∈ codecs none := List.mem_of_find?_eq_some found
  simp only [codecs, Option.toList_none, List.append_nil, List.mem_cons, List.not_mem_nil,
    or_false] at listed
  rw [dictDigest] at digested
  obtain ⟨_, digested⟩ := guard_eq_ok.mp digested
  obtain ⟨_, digested⟩ := guard_eq_ok.mp digested
  rcases listed with rfl | rfl | rfl
  · cases digested
  · cases digested
    rfl
  · cases digested
    rfl

theorem dictPayloadParse_ne_ok {buf : Bytes} : dictPayloadParse buf ≠ .error .ok := by
  -- Every guard refuses with a status of its own.
  intro wrong
  unfold dictPayloadParse at wrong
  dsimp only at wrong
  split at wrong; · cases wrong
  split at wrong; · cases wrong
  split at wrong; · cases wrong
  split at wrong; · cases wrong
  split at wrong; · cases wrong
  split at wrong; · cases wrong
  cases wrong

theorem dictDigest_ne_ok {codec : CodecVt} {info : DictInfo} {raw : Bytes} :
    dictDigest codec info raw ≠ .error .ok := by
  -- Every guard refuses with a status of its own.
  intro wrong
  rw [dictDigest] at wrong
  split at wrong; · cases wrong
  split at wrong; · cases wrong
  split at wrong
  · cases wrong
  · cases wrong

/-- Behind the payload's checks, the context grows by what the dictionary asks for. -/
theorem Decoder.loadDict_midCap (d : Decoder) (info : DictInfo) (stored : Bytes) :
    (Decoder.loadDict none d info stored).2.dctx.midCap =
      d.dctx.midCap + d.dctx.growth info.storedCodec stored := by
  -- The context changes while the dictionary is decoded, and in no other place.
  have grown := dictDecode_midCap d.dctx info stored
  rw [Decoder.loadDict]
  generalize dictDecode none d.dctx info stored = decoded at grown ⊢
  obtain ⟨⟨r, after⟩, call⟩ := decoded
  cases r with
  | error st => exact grown
  | ok raw =>
    dsimp only
    cases dictDigest d.codec info raw with
    | error st => exact grown
    | ok ddict => exact grown

/-- A dictionary that loads is kept in the size its header announces. -/
theorem Decoder.loadDict_held {d : Decoder} {id : UInt8} (found : codecGet none id = some d.codec)
    {info : DictInfo} {stored : Bytes} (size : info.storedSize.toNat = stored.length)
    (done : (Decoder.loadDict none d info stored).1 = .ok) :
    (Decoder.loadDict none d info stored).2.held = { d.held with
      dict := info.rawSize.toNat
      mid := d.dctx.midCap + d.dctx.growth info.storedCodec stored } := by
  have grown := d.loadDict_midCap info stored
  rw [Decoder.loadDict] at done grown ⊢
  cases decoded : dictDecode none d.dctx info stored with
  | mk r call =>
    obtain ⟨r, after⟩ := r
    obtain ⟨failed, sized⟩ := dictDecode_result size decoded
    rw [decoded] at done grown
    cases r with
    | error st =>
      -- A dictionary that does not decode is a failure.
      obtain rfl : st = .ok := done
      exact (failed rfl).elim
    | ok raw =>
      dsimp only at done grown ⊢
      cases digested : dictDigest d.codec info raw with
      | error st =>
        rw [digested] at done
        obtain rfl : st = .ok := done
        exact (dictDigest_ne_ok digested).elim
      | ok ddict =>
        -- The digest is kept, and it is as long as the dictionary.
        rw [digested] at grown
        have kept := dictDigest_size found digested
        have length := sized raw rfl
        dsimp only at grown
        simp only [Decoder.held, Option.map_some, Option.getD_some, kept, length, grown]

/-- A record that is admitted and passes its checks is loaded. -/
theorem Decoder.readDictRecord_read {d : Decoder} {rhdr : Bytes} {r : RecordHeader}
    {info : DictInfo} {stored : Bytes} (admitted : d.dictAdmitted r = true)
    (read : d.dictRead rhdr r = some (info, stored)) :
    info.storedSize.toNat = stored.length ∧ ∃ io,
      Decoder.readDictRecord none d rhdr r = Decoder.loadDict none { d with io := io } info stored := by
  -- The four tests in front are those of the admission, and the rest those of the read.
  simp only [Decoder.dictAdmitted, Bool.and_eq_true, decide_eq_true_eq] at admitted
  obtain ⟨⟨⟨fresh, least⟩, most⟩, limit⟩ := admitted
  have limited : ¬ (d.memLimit ≠ 0 ∧ r.size.toNat > d.memLimit) := by omega
  have unset : ¬ d.ddict.isSome := by
    rw [Option.isNone_iff_eq_none.mp fresh]
    decide
  rw [Decoder.readDictRecord, if_neg unset, if_neg (Nat.not_lt.mpr least),
    if_neg (Nat.not_lt.mpr most), if_neg limited]
  rw [Decoder.dictRead] at read
  generalize d.io.readExact r.size.toNat = result at read ⊢
  obtain ⟨st, payload, io⟩ := result
  cases st
  case ok =>
    dsimp only at read ⊢
    by_cases damaged : fmtRecordVerify rhdr payload ≠ .ok
    · rw [if_pos damaged] at read
      cases read
    rw [if_neg damaged] at read ⊢
    cases parsed : dictPayloadParse payload with
    | error st =>
      rw [parsed] at read
      cases read
    | ok found =>
      rw [parsed] at read
      dsimp only at read ⊢
      by_cases large : d.memLimit ≠ 0 ∧ found.rawSize.toNat > d.memLimit
      · rw [if_pos large] at read
        cases read
      rw [if_neg large] at read ⊢
      cases read
      obtain ⟨_, _, announced, rfl⟩ := dictPayloadParse_ok_iff.mp parsed
      exact ⟨by rw [announced, List.length_drop], io, rfl⟩
  all_goals cases read

/-- A record that succeeds was admitted and has passed its checks. -/
theorem Decoder.readDictRecord_ok {d : Decoder} {rhdr : Bytes} {r : RecordHeader}
    (done : (Decoder.readDictRecord none d rhdr r).1 = .ok) :
    d.dictAdmitted r = true ∧ ∃ info stored, d.dictRead rhdr r = some (info, stored) := by
  rw [Decoder.readDictRecord] at done
  -- Each check that fires reports a failure of its own.
  by_cases again : d.ddict.isSome
  · rw [if_pos again] at done
    cases done
  rw [if_neg again] at done
  by_cases short : r.size.toNat < dictPayloadHeader
  · rw [if_pos short] at done
    cases done
  rw [if_neg short] at done
  by_cases long : r.size.toNat > dictSizeMax + dictPayloadHeader
  · rw [if_pos long] at done
    cases done
  rw [if_neg long] at done
  by_cases large : d.memLimit ≠ 0 ∧ r.size.toNat > d.memLimit
  · rw [if_pos large] at done
    cases done
  rw [if_neg large] at done
  have fresh : d.ddict.isNone = true := by
    rw [Option.isNone_iff_eq_none]
    exact Option.not_isSome_iff_eq_none.mp again
  refine ⟨?_, ?_⟩
  · simp only [Decoder.dictAdmitted, Bool.and_eq_true, decide_eq_true_eq]
    exact ⟨⟨⟨fresh, by omega⟩, by omega⟩, by omega⟩
  rw [Decoder.dictRead]
  generalize d.io.readExact r.size.toNat = result at done ⊢
  obtain ⟨st, payload, io⟩ := result
  cases st
  case ok =>
    dsimp only at done ⊢
    by_cases damaged : fmtRecordVerify rhdr payload ≠ .ok
    · rw [if_pos damaged] at done
      exact (damaged done).elim
    rw [if_neg damaged] at done ⊢
    cases parsed : dictPayloadParse payload with
    | error st =>
      rw [parsed] at done
      obtain rfl : st = .ok := done
      exact (dictPayloadParse_ne_ok parsed).elim
    | ok info =>
      rw [parsed] at done
      dsimp only at done ⊢
      by_cases heavy : d.memLimit ≠ 0 ∧ info.rawSize.toNat > d.memLimit
      · rw [if_pos heavy] at done
        cases done
      · rw [if_neg heavy]
        exact ⟨info, _, rfl⟩
  all_goals cases done

/-- The points of a DICT record stay within a limit when all of it does at once. -/
theorem Decoder.dictPoints_within (d : Decoder) (rhdr : Bytes) (r : RecordHeader) (limit : Nat) :
    (∀ w ∈ d.held :: d.dictPoints rhdr r, w.total ≤ limit) ↔
      d.held.total + d.dictDemand rhdr r ≤ limit := by
  rw [Decoder.dictPoints, Decoder.dictDemand]
  by_cases admitted : d.dictAdmitted r = true
  · rw [if_pos admitted, if_pos admitted]
    dsimp only
    cases read : d.dictRead rhdr r with
    | none =>
      simp only [List.mem_cons, List.not_mem_nil, or_false, forall_eq_or_imp, forall_eq]
      simp only [WorkingSet.total, Decoder.held]
      omega
    | some found =>
      obtain ⟨info, stored⟩ := found
      obtain ⟨_, io, loaded⟩ := Decoder.readDictRecord_read admitted read
      have grown := Decoder.loadDict_midCap { d with io := io } info stored
      -- No dictionary is held yet, and the buffers come one after another.
      have fresh : d.held.dict = 0 := by
        simp only [Decoder.dictAdmitted, Bool.and_eq_true, Option.isNone_iff_eq_none] at admitted
        simp only [Decoder.held, admitted.1.1.1, Option.map_none, Option.getD_none]
      rw [loaded, grown]
      simp only [List.mem_cons, List.not_mem_nil, or_false, forall_eq_or_imp, forall_eq]
      simp only [WorkingSet.total, Decoder.held] at fresh ⊢
      omega
  · rw [if_neg admitted, if_neg admitted]
    simp only [List.mem_cons, List.not_mem_nil, or_false, forall_eq, Nat.add_zero]

/-- The section at the front is seen by the decoder itself, further on in its stream. -/
theorem Decoder.front_eq {d e : Decoder} :
    (∀ rhdr r, d.front = .dict e rhdr r → ∃ io, e = { d with io := io }) ∧
      ∀ b, d.front = .block e b → ∃ io, e = { d with io := io } := by
  -- Looking at the front only moves on in the stream.
  rw [Decoder.front]
  split
  · exact ⟨fun _ _ seen => (by cases seen), fun _ seen => by cases seen⟩
  split
  · split
    · split
      · dsimp only
        split
        · exact ⟨fun _ _ seen => (by cases seen), fun _ seen => by cases seen⟩
        split
        · refine ⟨fun _ _ seen => ?_, fun _ seen => by cases seen⟩
          obtain ⟨rfl, _, _⟩ := Front.dict.inj seen
          exact ⟨_, rfl⟩
        · exact ⟨fun _ _ seen => (by cases seen), fun _ seen => by cases seen⟩
      · exact ⟨fun _ _ seen => (by cases seen), fun _ seen => by cases seen⟩
    · split
      · split
        · exact ⟨fun _ _ seen => (by cases seen), fun _ seen => by cases seen⟩
        · refine ⟨fun _ _ seen => (by cases seen), fun _ seen => ?_⟩
          obtain ⟨rfl, _⟩ := Front.block.inj seen
          exact ⟨_, rfl⟩
      · exact ⟨fun _ _ seen => (by cases seen), fun _ seen => by cases seen⟩
  · exact ⟨fun _ _ seen => (by cases seen), fun _ seen => by cases seen⟩

/-- A round stays within a limit when what is held and what its section asks for fit together. -/
theorem Decoder.points_within (d : Decoder) (limit : Nat) :
    (∀ w ∈ d.points, w.total ≤ limit) ↔ d.held.total + d.demand ≤ limit := by
  rw [Decoder.points, Decoder.demand]
  cases seen : d.front with
  | dict e rhdr r =>
    -- A dictionary holds its payload, the decoded bytes and the digest for a while.
    obtain ⟨io, rfl⟩ := Decoder.front_eq.1 _ _ seen
    exact Decoder.dictPoints_within { d with io := io } rhdr r limit
  | block e b =>
    -- A block is decoded in buffers that are there, but for the staging buffer.
    obtain ⟨io, rfl⟩ := Decoder.front_eq.2 _ seen
    have grown := Decoder.readBlock_midCap { d with io := io } b
    dsimp only
    rw [grown]
    simp only [List.mem_cons, List.not_mem_nil, or_false, forall_eq_or_imp, forall_eq]
    simp only [WorkingSet.total, Decoder.held]
    omega
  | other =>
    -- Nothing else asks for memory.
    simp only [List.mem_cons, List.not_mem_nil, or_false, forall_eq, Nat.add_zero]

/-- A DICT record that succeeds leaves the dictionary and the staging buffer, but no payload. -/
theorem Decoder.readDictRecord_held {d e : Decoder} {id : UInt8}
    (found : codecGet none id = some d.codec) {rhdr : Bytes} {r : RecordHeader}
    (done : Decoder.readDictRecord none d rhdr r = (.ok, e)) :
    e.held.total + r.size.toNat = d.held.total + d.dictDemand rhdr r := by
  -- The dictionary was absent before, and the record's payload is released at the end.
  obtain ⟨admitted, info, stored, read⟩ := Decoder.readDictRecord_ok (congrArg Prod.fst done)
  obtain ⟨size, io, loaded⟩ := Decoder.readDictRecord_read admitted read
  rw [loaded] at done
  have kept := Decoder.loadDict_held (d := { d with io := io }) found size
    (congrArg Prod.fst done)
  have fresh : d.held.dict = 0 := by
    simp only [Decoder.dictAdmitted, Bool.and_eq_true, Option.isNone_iff_eq_none] at admitted
    simp only [Decoder.held, admitted.1.1.1, Option.map_none, Option.getD_none]
  rw [done] at kept
  rw [kept, Decoder.dictDemand, if_pos admitted, read]
  simp only [WorkingSet.total, Decoder.held] at fresh ⊢
  omega

/-- A section that is not a block or a DICT record changes nothing that is held. -/
theorem Decoder.handleRecord_held {d e : Decoder} {hdrbytes : Bytes}
    (other : ∀ r, fmtRecordParse hdrbytes = .ok r → r.tag ≠ recDict)
    (done : Decoder.handleRecord none d hdrbytes = (.ok, e)) : e.held = d.held := by
  rw [Decoder.handleRecord] at done
  cases parsed : fmtRecordParse hdrbytes with
  | error st =>
    rw [parsed] at done
    obtain ⟨_, rfl⟩ := Prod.mk.inj done
    rfl
  | ok r =>
    rw [parsed] at done
    dsimp only at done
    -- The end of the blocks only sets a flag.
    split at done
    · split at done
      · cases done
      split at done
      · obtain ⟨_, rfl⟩ := Prod.mk.inj done
        rfl
      · cases done
        rfl
    split at done
    · -- A dictionary is excluded here.
      rename_i dict
      exact (other r parsed dict).elim
    split at done
    · cases done
    · -- Any other record is skipped.
      obtain ⟨_, rfl⟩ := Prod.mk.inj done
      rfl

/-- A block is decoded in the buffers that are there. -/
theorem Decoder.readBlock_held (d : Decoder) (b : BlockHeader) :
    (Decoder.readBlock none d b).2.held =
      { d.held with mid := (Decoder.readBlock none d b).2.dctx.midCap } := by
  -- Only the context may have grown.
  rw [Decoder.readBlock]
  split; · rfl
  split; · rfl
  split; · rfl
  split
  · split
    · dsimp only
      split
      · rfl
      · rw [Decoder.decodePayload]
        dsimp only
        split
        · rfl
        · rfl
    · rfl
  · rfl

/-- The payload of a DICT record is only held while the record is read. -/
def Decoder.released (d : Decoder) : Nat :=
  match d.front with
  | .dict _ _ r => r.size.toNat
  | _ => 0

/-- What a round leaves behind is what was held before and what its section asked for, less what
is released. -/
theorem Decoder.nextBlockRound_held {d e : Decoder} {id : UInt8}
    (found : codecGet none id = some d.codec)
    (round : Decoder.nextBlockRound none d = .again e ∨
      Decoder.nextBlockRound none d = .done (.ok, e)) :
    e.held.total + d.released = d.held.total + d.demand := by
  rw [Decoder.released, Decoder.demand, Decoder.front]
  rw [Decoder.nextBlockRound] at round
  by_cases ended : d.sawEob = true
  · -- Behind the end of the blocks a round does nothing.
    rw [if_pos ended] at round ⊢
    rcases round with again | done
    · cases again
    · cases done
      rfl
  rw [if_neg ended] at round ⊢
  generalize d.io.need 2 = peek at round ⊢
  obtain ⟨st, io₂⟩ := peek
  cases st
  case ok =>
    dsimp only at round ⊢
    by_cases record : ld16le io₂.rbuf 0 ≠ blockMagic
    · -- A record stands at the front.
      rw [if_pos record] at round ⊢
      generalize io₂.need recordHeaderSize = got at round ⊢
      obtain ⟨st, io⟩ := got
      cases st
      case ok =>
        dsimp only at round ⊢
        -- The handler succeeded, whatever the record was.
        have handled : Decoder.handleRecord none { d with io := io }
            (io.rbuf.take recordHeaderSize) = (.ok, e) := by
          generalize Decoder.handleRecord none { d with io := io }
            (io.rbuf.take recordHeaderSize) = result at round ⊢
          obtain ⟨st, w⟩ := result
          cases st
          case ok =>
            rcases round with again | done
            · rw [Round.again.inj again]
            · cases done
          all_goals
            rcases round with again | done
            · cases again
            · cases done
        cases parsed : fmtRecordParse (io.rbuf.take recordHeaderSize) with
        | error st =>
          have kept := Decoder.handleRecord_held (fun r ok => by cases parsed.symm.trans ok) handled
          rw [kept]
          rfl
        | ok r =>
          dsimp only
          by_cases dict : r.tag = recDict
          · -- A DICT record leaves the dictionary and releases its payload.
            rw [if_pos dict]
            have end_ : r.tag ≠ recEndOfBlocks := by
              rw [dict]
              decide
            rw [Decoder.handleRecord, parsed] at handled
            dsimp only at handled
            rw [if_neg end_, if_pos dict] at handled
            exact Decoder.readDictRecord_held (d := { d with io := io.consume recordHeaderSize })
              found handled
          · -- Any other record leaves all as it was.
            rw [if_neg dict]
            have kept := Decoder.handleRecord_held
              (fun r' ok => Except.ok.inj (parsed.symm.trans ok) ▸ dict) handled
            rw [kept]
            rfl
      all_goals
        rcases round with again | done
        · cases again
        · cases done
    · -- A block stands at the front, and is read into the decoder's own buffers.
      rw [if_neg record] at round ⊢
      generalize io₂.need blockHeaderSize = got at round ⊢
      obtain ⟨st, io⟩ := got
      cases st
      case ok =>
        dsimp only at round ⊢
        cases parsed : fmtBlockParse (io.rbuf.take blockHeaderSize) with
        | error st =>
          rw [parsed] at round
          rcases round with again | done
          · cases again
          · cases done
            exact (fmtBlockParse_ne_ok _ parsed).elim
        | ok b =>
          rw [parsed] at round
          rcases round with again | done
          · cases again
          · have result := Round.done.inj done
            have kept := Decoder.readBlock_held { d with io := io.consume blockHeaderSize } b
            have grown := Decoder.readBlock_midCap { d with io := io.consume blockHeaderSize } b
            dsimp only at result ⊢
            rw [result] at kept grown
            rw [kept, grown]
            simp only [WorkingSet.total, Decoder.held]
            omega
      all_goals
        rcases round with again | done
        · cases again
        · cases done
  all_goals
    rcases round with again | done
    · cases again
    · cases done

/-- A round that succeeds keeps what every update keeps: it is the loop, given one round. -/
theorem Decoder.Kept.nextBlockRound {zstd : Option CodecVt} {P : Decoder → Prop}
    (kept : Decoder.Kept zstd P) {d e : Decoder} (holds : P d)
    (round : Decoder.nextBlockRound zstd d = .again e ∨
      Decoder.nextBlockRound zstd d = .done (.ok, e)) : P e := by
  have next := kept.nextBlockLoop 1 holds
  rw [Decoder.nextBlockLoop_unrolls zstd 0 d] at next
  -- Whether the round goes on or ends, the loop of one round ends with its decoder.
  rcases round with again | done
  · rw [again] at next
    exact next
  · rw [done] at next
    exact next

/-- The states in which a round of `next_block` begins: after the creation, behind a record, behind
a block, and with any part of that block taken. -/
inductive DecoderRounds (src : Source) (memLimit : Nat) : Decoder → Prop
  | create {d : Decoder} : decoderCreate none src memLimit = .ok d → DecoderRounds src memLimit d
  | record {d e : Decoder} : DecoderRounds src memLimit d →
    Decoder.nextBlockRound none d = .again e → DecoderRounds src memLimit e
  | block {d e : Decoder} : DecoderRounds src memLimit d →
    Decoder.nextBlockRound none d = .done (.ok, e) → DecoderRounds src memLimit e
  | taken {d : Decoder} (rawPos : Nat) : DecoderRounds src memLimit d →
    DecoderRounds src memLimit { d with rawPos := rawPos }

section Rounds

variable {src : Source} {memLimit : Nat} {d e : Decoder}

/-- A call of `next_block` that succeeds ends where its last round does. -/
theorem DecoderRounds.nextBlock (rounds : DecoderRounds src memLimit d)
    (done : Decoder.nextBlock none d = (.ok, e)) : DecoderRounds src memLimit e := by
  have ends := Decoder.nextBlock_ends none d
  rw [done] at ends
  -- Every round but the last is a record's.
  refine ends.result (I := DecoderRounds src memLimit)
    (Q := fun r => r.1 = .ok → DecoderRounds src memLimit r.2)
    (fun _ _ begun round => begun.record round) (fun w r begun round good => ?_) rounds rfl
  obtain ⟨st, w'⟩ := r
  obtain rfl : st = .ok := good
  exact begun.block round

/-- The rounds of a decoder's calls are those of its run. -/
theorem DecoderRounds.readLoop (len fuel : Nat) (out : Bytes) {got : Bytes}
    (rounds : DecoderRounds src memLimit d)
    (done : (Decoder.readLoop none len fuel out d).1 = .ok got) :
    DecoderRounds src memLimit (Decoder.readLoop none len fuel out d).2 := by
  -- The induction is on the fuel of the read; only its calls for a next block are rounds.
  induction fuel generalizing out d with
  | zero => exact rounds
  | succ fuel ih =>
    rw [Decoder.readLoop] at done ⊢
    by_cases more : out.length < len
    · rw [if_pos more] at done ⊢
      by_cases empty : d.rawPos = d.rawLen
      · rw [if_pos empty] at done ⊢
        by_cases ended : d.sawEob = true
        · rw [if_pos ended]
          exact rounds
        rw [if_neg ended] at done ⊢
        cases next : Decoder.nextBlock none d with
        | mk st e =>
          rw [next] at done
          cases st
          case ok =>
            have begun := rounds.nextBlock next
            dsimp only at done ⊢
            by_cases same : e.rawPos = e.rawLen
            · rw [if_pos same]
              exact begun
            · rw [if_neg same] at done ⊢
              exact ih _ (begun.taken _) done
          all_goals cases done
      · rw [if_neg empty] at done ⊢
        exact ih _ (rounds.taken _) done
    · rw [if_neg more]
      exact rounds

/-- The header of a stream names the codec that its rounds use. -/
theorem DecoderRounds.found (rounds : DecoderRounds src memLimit d) :
    codecGet none d.hdr.codecId = some d.codec := by
  -- Rounds keep the header and the codec that goes with it.
  have external : ∀ v ∈ (none : Option CodecVt), ZstdVt v := by simp
  have state : d.State none := by
    induction rounds with
    | create created =>
      obtain ⟨_, _, _, found, _, rfl⟩ := decoderCreate_ok created
      exact .fresh found
    | record _ round ih => exact (Decoder.state_kept external).nextBlockRound ih (.inl round)
    | block _ round ih => exact (Decoder.state_kept external).nextBlockRound ih (.inr round)
    | taken rawPos _ ih => exact ih
  exact state.header

/-- A decoder that is created holds its read buffer and the two buffers of its block size. -/
theorem decoderCreate_held (created : decoderCreate none src memLimit = .ok d) :
    d.held = { rbuf := rbufSize, raw := d.hdr.blockSize, cbuf := d.codec.bound d.hdr.blockSize,
               payload := 0, dict := 0, mid := 0 } := by
  -- A new context has no staging buffer, whichever codec it is for.
  obtain ⟨io, hdr, codec, found, _, rfl⟩ := decoderCreate_ok created
  have listed : codec ∈ codecs none := List.mem_of_find?_eq_some found
  simp only [codecs, Option.toList_none, List.append_nil, List.mem_cons, List.not_mem_nil,
    or_false] at listed
  rcases listed with rfl | rfl | rfl
  · rfl
  · rfl
  · rfl

end Rounds

/-- A run holds no more than the limit at any point. -/
def MemoryHonoured (src : Source) (memLimit : Nat) : Prop :=
  (∀ w ∈ creationPoints src memLimit, w.total ≤ memLimit) ∧
    ∀ d, DecoderRounds src memLimit d → ∀ w ∈ d.points, w.total ≤ memLimit

/--
A decoder honours its limit exactly when the sums fit that its checks leave out.

The read buffer must fit at all, and at the start of every round what is held — the read buffer,
the two block buffers, the dictionary and the staging buffer so far — must fit together with what
the next section asks for.
What is held follows from the sections: a created decoder holds its read buffer and the buffers of
its block size, and a round adds what its section asks for, less the record payload that it releases.
-/
theorem memoryHonoured_iff (src : Source) (memLimit : Nat) :
    (MemoryHonoured src memLimit ↔ rbufSize ≤ memLimit ∧
      ∀ d, DecoderRounds src memLimit d → d.held.total + d.demand ≤ memLimit) ∧
    (∀ d, decoderCreate none src memLimit = .ok d → d.held =
      { rbuf := rbufSize, raw := d.hdr.blockSize, cbuf := d.codec.bound d.hdr.blockSize,
        payload := 0, dict := 0, mid := 0 }) ∧
    (∀ d e, DecoderRounds src memLimit d →
      (Decoder.nextBlockRound none d = .again e ∨
        Decoder.nextBlockRound none d = .done (.ok, e)) →
      e.held.total + d.released = d.held.total + d.demand) ∧
    ∀ d len got, DecoderRounds src memLimit d → (Decoder.read none d len).1 = .ok got →
      DecoderRounds src memLimit (Decoder.read none d len).2 := by
  refine ⟨⟨?_, ?_⟩, fun d created => decoderCreate_held created,
    fun d e begun round => Decoder.nextBlockRound_held begun.found round,
    fun d len got begun done => ?_⟩
  · rintro ⟨creation, rounds⟩
    refine ⟨?_, fun d begun => (d.points_within memLimit).mp (rounds d begun)⟩
    rw [creationPoints] at creation
    split at creation
    · exact creation _ (List.mem_singleton.mpr rfl)
    · exact creation _ (List.mem_cons_self ..)
  · rintro ⟨start, rounds⟩
    refine ⟨fun w point => ?_, fun d begun => (d.points_within memLimit).mpr (rounds d begun)⟩
    rw [creationPoints] at point
    cases created : decoderCreate none src memLimit with
    | error st =>
      rw [created] at point
      obtain rfl := List.mem_singleton.mp point
      exact start
    | ok d =>
      -- The buffers of the creation are what the first round begins with.
      have first := rounds d (.create created)
      rw [created] at point
      simp only [List.mem_cons, List.not_mem_nil, or_false] at point
      simp only [WorkingSet.total, Decoder.held] at first
      rcases point with rfl | rfl | rfl
      · exact start
      · simp only [WorkingSet.total]
        omega
      · simp only [WorkingSet.total]
        omega
  · -- A read that succeeds is its loop.
    unfold Decoder.read at done ⊢
    split at done
    · cases done
    · rename_i open_
      rw [if_neg open_]
      exact begun.readLoop _ _ _ done

/-- A file of 64 KiB blocks whose block announces a staging buffer of 256 MiB. -/
def swellingHeader : FileHeader :=
  { formatMajor := 1, formatMinor := 0, headerSize := 32, flags := 0, codecId := lzeVt.id,
    level := 6, checksumId := 0, blockSizeLog := 16, rawSize := 5 }

/-- The mode byte, the length 2^28 as a varint, and a table with two codes of one bit. -/
def swellingPayload : Bytes :=
  [lzeModeHuff, 0x80, 0x80, 0x80, 0x80, 0x01, 0x11] ++ List.replicate 127 0

def swellingBlock : BlockHeader :=
  { bflags := 0, codecId := lzeVt.id, storedSize := 134, rawSize := 5, rawOffset := 0 }

def swellingFile : Bytes :=
  fmtHeaderStore swellingHeader ++ fmtBlockStore swellingBlock ++ swellingPayload

/-- A limit of one mebibyte does not keep the decoder from asking for the staging buffer. -/
theorem memoryHonoured_swelling :
    ¬ ∀ src memLimit, memLimit ≠ 0 → MemoryHonoured src memLimit := by
  -- The first block of the file asks for more than 256 times the limit.
  intro honoured
  have demands : ((decoderCreate none (memSrc swellingFile) 1048576).toOption.map fun d =>
      decide (d.held.total + d.demand > 268435456)) = some true := by
    decide +kernel
  have within := honoured (memSrc swellingFile) 1048576 (by decide)
  cases created : decoderCreate none (memSrc swellingFile) 1048576 with
  | error st =>
    rw [created] at demands
    cases demands
  | ok d =>
    rw [created] at demands
    have large := of_decide_eq_true (Option.some.inj demands)
    have point := (d.points_within 1048576).mp (within.2 d (.create created))
    omega

end Xq

import Xq.Codec.LzbAccess
import Xq.Proofs.Codec.LzbDecode

/-! The lzb decoder against its reference: no access leaves its buffer, and what it accepts is what
the tokens of the payload mean, copied byte by byte. -/

namespace Xq

open Lib

section Reference

/-- One token of a payload with its literals, and with a match by distance and length unless it is
the last one. -/
structure LzbToken where
  lits : Bytes
  hit : Option (Nat × Nat)
  deriving DecidableEq, Repr

/-- The tokens a payload is made of, or `none` where it is cut or malformed. The fuel is the
length of the payload, since every token takes at least a byte. -/
def lzbTokens : Nat → Bytes → Option (List LzbToken)
  | _, [] => some []
  | 0, _ :: _ => none
  | fuel + 1, token :: inp =>
    (lzbLitLen (token >>> 4).toNat inp).bind fun (litlen, inp) =>
    if litlen > inp.length then none
    else if (token &&& 0x0F).toNat = 0 then some [{ lits := inp.take litlen, hit := none }]
    else
      (getVarint (inp.drop litlen)).bind fun (dist, rest) =>
      (lzbMatchLen (token &&& 0x0F).toNat rest).bind fun (mlen, rest) =>
      (lzbTokens fuel rest).map fun tokens =>
        { lits := inp.take litlen, hit := some (dist.toNat, mlen) } :: tokens

/-- What one token appends: its literals, then a copy out of the dictionary and the output. -/
def LzbToken.interpret (dict : Bytes) (t : LzbToken) (out : Bytes) : Option Bytes :=
  match t.hit with
  | none => some (out ++ t.lits)
  | some (dist, mlen) =>
    if 1 ≤ dist ∧ dist ≤ (out ++ t.lits).length + dict.length then
      some (copyBehind 0 dict dist mlen (out ++ t.lits))
    else none

def lzbInterpret (dict : Bytes) : List LzbToken → Bytes → Option Bytes
  | [], out => some out
  | t :: rest, out => (t.interpret dict out).bind (lzbInterpret dict rest)

/-- What a payload stands for under a dictionary. -/
def lzbReference (dict payload : Bytes) : Option Bytes :=
  (lzbTokens payload.length payload).bind fun tokens => lzbInterpret dict tokens []

/-- Inside the buffers, the decoder's split copy is the byte-wise one. -/
theorem copyMatch_eq_copyBehind {dict dst : Bytes} {dist : Nat}
    (reach : dist ≤ dst.length + dict.length) (mlen : Nat) :
    copyMatch dict dst dist mlen = copyBehind 0 dict dist mlen dst := by
  -- Behind the dictionary both are one copy in the whole text.
  refine List.append_cancel_left (show dict ++ _ = dict ++ _ from ?_)
  rw [append_copyMatch reach, append_copyBehind]

/-- A token writes its literals and its match. -/
theorem LzbToken.interpret_length {dict out out' : Bytes} {t : LzbToken}
    (run : t.interpret dict out = some out') :
    out'.length = out.length + t.lits.length + (t.hit.map Prod.snd).getD 0 := by
  obtain ⟨lits, hit⟩ := t
  cases hit with
  | none =>
    -- The last token only has literals.
    cases run
    simp
  | some hit =>
    -- The copy appends as many symbols as the match is long.
    obtain ⟨dist, mlen⟩ := hit
    simp only [LzbToken.interpret] at run
    split at run
    · cases run
      have whole : (dict ++ copyBehind 0 dict dist mlen (out ++ lits)).length = _ :=
        congrArg List.length (append_copyBehind dict dist mlen (out ++ lits))
      simp only [List.length_append, length_copyBack] at whole
      simp only [Option.map_some, Option.getD_some]
      omega
    · cases run

/-- Interpreting tokens only ever appends. -/
theorem lzbInterpret_length {dict : Bytes} {tokens : List LzbToken} {out out' : Bytes}
    (run : lzbInterpret dict tokens out = some out') : out.length ≤ out'.length := by
  -- Each token appends to what the ones before it have written.
  induction tokens generalizing out with
  | nil =>
    cases run
    exact le_refl _
  | cons t rest ih =>
    obtain ⟨mid, first, later⟩ := Option.bind_eq_some_iff.mp run
    have step := t.interpret_length first
    have := ih later
    omega

/-- A varint leaves a shorter suffix of the input unread. -/
theorem getVarintLoop_rest {inp rest : Bytes} {v w : UInt64} {shift : Nat}
    (read : getVarintLoop inp v shift = some (w, rest)) :
    rest <:+ inp ∧ rest.length < inp.length := by
  -- Every group takes one byte off the input.
  induction inp generalizing v shift with
  | nil => cases read
  | cons b inp ih =>
    rw [getVarintLoop] at read
    split at read; · cases read
    dsimp only at read
    split at read
    · cases read
      exact ⟨List.suffix_cons _ _, Nat.lt_succ_self _⟩
    · split at read; · cases read
      obtain ⟨suffix, shorter⟩ := ih read
      exact ⟨suffix.trans (List.suffix_cons b inp), Nat.lt_succ_of_lt shorter⟩

/-- So does a literal length, which may take no further byte. -/
theorem lzbLitLen_rest {inp rest : Bytes} {code litlen : Nat}
    (read : lzbLitLen code inp = some (litlen, rest)) : rest <:+ inp := by
  rw [lzbLitLen] at read
  split at read
  · split at read
    · cases read
    · -- The length goes on in a varint.
      rename_i extended
      split at read; · cases read
      cases read
      exact (getVarintLoop_rest extended).1
  · cases read
    exact List.suffix_rfl

/-- So does a match length. -/
theorem lzbMatchLen_rest {inp rest : Bytes} {code mlen : Nat}
    (read : lzbMatchLen code inp = some (mlen, rest)) : rest <:+ inp := by
  rw [lzbMatchLen] at read
  split at read
  · split at read
    · cases read
    · -- The length goes on in a varint.
      rename_i extended
      split at read; · cases read
      cases read
      exact (getVarintLoop_rest extended).1
  · cases read
    exact List.suffix_rfl

/-- The token loop succeeds exactly where the tokens mean something that fits. -/
theorem lzbDecompressLoop_ok_iff {dict : Bytes} {cap fuel : Nat} {inp dst out : Bytes}
    (enough : inp.length ≤ fuel) (within : dst.length ≤ cap) :
    lzbDecompressLoop dict cap fuel inp dst = (.ok, out) ↔
      ((lzbTokens fuel inp).bind fun tokens => lzbInterpret dict tokens dst) = some out ∧
        out.length ≤ cap := by
  -- The induction is on the fuel, of which a token takes one and the input at least as much. The
  -- loop checks room for literals and match as it goes, the meaning only at its end, so each
  -- refusal of the loop is compared with a meaning that is too long.
  induction fuel generalizing inp dst with
  | zero =>
    -- Without input the output is what it was.
    obtain rfl : inp = [] := List.length_eq_zero_iff.mp (Nat.le_zero.mp enough)
    simp only [lzbDecompressLoop, lzbTokens, Option.bind_some, lzbInterpret, Option.some.injEq]
    grind
  | succ fuel ih =>
    cases inp with
    | nil =>
      simp only [lzbDecompressLoop, lzbTokens, Option.bind_some, lzbInterpret, Option.some.injEq]
      grind
    | cons token inp =>
      rw [lzbDecompressLoop, lzbTokens]
      -- The literal length is cut short for both, or it is read by both.
      cases lit : lzbLitLen (token >>> 4).toNat inp with
      | none => simp
      | some read =>
        obtain ⟨litlen, rest⟩ := read
        have shorter := (lzbLitLen_rest lit).length_le
        simp only [Option.bind_some]
        by_cases cut : litlen > rest.length
        · simp [cut]
        have lits : (rest.take litlen).length = litlen := List.length_take_of_le (by omega)
        rw [if_neg cut, if_neg cut]
        by_cases last : (token &&& 0x0F).toNat = 0
        · -- The last token: its literals fit or they do not.
          simp only [if_pos last, Option.bind_some, lzbInterpret, LzbToken.interpret,
            Option.some.injEq]
          by_cases full : litlen > cap - dst.length
          · rw [if_pos full]
            refine ⟨by simp, ?_⟩
            rintro ⟨rfl, fits⟩
            rw [List.length_append, lits] at fits
            omega
          · rw [if_neg full]
            constructor
            · intro decoded
              cases decoded
              rw [List.length_append, lits]
              exact ⟨rfl, by omega⟩
            · rintro ⟨rfl, _⟩
              rfl
        -- A token with a match reads a distance and a length behind the literals.
        simp only [if_neg last]
        cases far : getVarint (rest.drop litlen) with
        | none => split <;> simp
        | some read =>
          obtain ⟨dist, behind⟩ := read
          simp only [Option.bind_some]
          cases long : lzbMatchLen (token &&& 0x0F).toNat behind with
          | none => split <;> simp
          | some read =>
            obtain ⟨mlen, next⟩ := read
            have unread : next.length ≤ fuel := by
              have := (lzbMatchLen_rest long).length_le
              have := (getVarintLoop_rest far).2
              rw [List.length_drop] at this
              rw [List.length_cons] at enough
              omega
            have zero : dist = 0 ↔ dist.toNat = 0 := by
              rw [← UInt64.toNat_inj, UInt64.toNat_zero]
            have here : (dst ++ rest.take litlen).length = dst.length + litlen := by
              rw [List.length_append, lits]
            simp only [Option.bind_some, Option.bind_map, Function.comp_def, lzbInterpret,
              LzbToken.interpret, zero, here]
            by_cases reach : 1 ≤ dist.toNat ∧ dist.toNat ≤ dst.length + litlen + dict.length
            · -- The distance is inside what has been written, so the copy has a meaning.
              simp only [if_pos reach, Option.bind_some]
              have inside : dist.toNat ≤ (dst ++ rest.take litlen).length + dict.length :=
                here ▸ reach.2
              have copied := copyMatch_eq_copyBehind inside mlen
              have length := length_copyMatch inside mlen
              rw [here] at length
              rw [← copied]
              by_cases fits : litlen ≤ cap - dst.length ∧ mlen ≤ cap - (dst.length + litlen)
              · rw [if_neg (by omega), if_neg (by omega), if_neg (by omega), if_neg (by omega)]
                exact ih unread (by omega)
              · -- A token that does not fit is refused, and its meaning is too long.
                constructor
                · split; · simp
                  rw [if_neg (by omega), if_neg (by omega), if_pos (by omega)]
                  simp
                · rintro ⟨run, short⟩
                  obtain ⟨tokens, _, later⟩ := Option.bind_eq_some_iff.mp run
                  have := lzbInterpret_length later
                  omega
            · -- A distance of zero, or one in front of the dictionary, has no meaning.
              simp only [if_neg reach, Option.bind_none, Option.bind_fun_none]
              constructor
              · split; · simp
                split; · simp
                rw [if_pos (by omega)]
                simp
              · simp

/-- Decompression succeeds exactly on the payloads whose reference meaning fits. -/
theorem lzbDecompress_ok_iff {cap : Nat} {payload out : Bytes} {ddict : Option LzbDdict} :
    lzbDecompress cap payload ddict = (.ok, out) ↔
      lzbReference ((ddict.map LzbDdict.data).getD []) payload = some out ∧ out.length ≤ cap :=
  lzbDecompressLoop_ok_iff (le_refl _) (Nat.zero_le cap)

end Reference

section Accesses

/-- The unread input from a position on, as the decoder by positions sees a suffix. -/
theorem loadByte_drop {src rest : Bytes} {ip : Nat} {b : UInt8} (here : src.drop ip = b :: rest) :
    ip < src.length ∧ loadByte src ip = some b ∧ src.drop (ip + 1) = rest := by
  -- A suffix that is not empty begins inside the input.
  have inside : ip < src.length := by
    by_contra outside
    rw [List.drop_eq_nil_of_le (by omega)] at here
    cases here
  rw [List.drop_eq_getElem_cons inside] at here
  obtain ⟨rfl, rfl⟩ := List.cons.inj here
  exact ⟨inside, List.getElem?_eq_getElem inside, rfl⟩

/-- A suffix of the input is what stands behind some position of it. -/
theorem drop_of_suffix {src rest : Bytes} {ip : Nat} (suffix : rest <:+ src.drop ip) :
    src.drop (src.length - rest.length) = rest := by
  -- A suffix is told by its length.
  have whole : rest <:+ src := suffix.trans (List.drop_suffix ip src)
  exact (List.suffix_iff_eq_drop.mp whole).symm

/-- Reading a varint by positions loads inside the input only, and finds what the unread bytes
encode. -/
theorem getVarintAtLoop_eq {src : Bytes} {fuel ip shift : Nat} {v : UInt64}
    (enough : src.length - ip ≤ fuel) :
    getVarintAtLoop src fuel ip v shift =
      some ((getVarintLoop (src.drop ip) v shift).map fun (w, rest) =>
        (w, src.length - rest.length)) := by
  -- The induction is on the fuel, which covers the unread input.
  induction fuel generalizing ip v shift with
  | zero =>
    rw [getVarintAtLoop, if_neg (by omega), List.drop_eq_nil_of_le (by omega)]
    rfl
  | succ fuel ih =>
    rw [getVarintAtLoop]
    cases here : src.drop ip with
    | nil =>
      -- The input has ended, and neither reads on.
      have := List.drop_eq_nil_iff.mp here
      rw [if_neg (by omega)]
      rfl
    | cons b rest =>
      obtain ⟨inside, load, behind⟩ := loadByte_drop here
      have position : src.length - rest.length = ip + 1 := by
        rw [← behind, List.length_drop]
        omega
      rw [if_pos inside, load, Option.bind_some, getVarintLoop]
      split; · rfl
      dsimp only
      split
      · simp [position]
      split; · rfl
      rw [ih (by omega), behind]

theorem getVarintAt_eq (src : Bytes) (ip : Nat) :
    getVarintAt src ip = some ((getVarint (src.drop ip)).map fun (w, rest) =>
      (w, src.length - rest.length)) :=
  getVarintAtLoop_eq (le_refl _)

theorem lzbLitLenAt_eq {src : Bytes} {code ip : Nat} (inside : ip ≤ src.length) :
    lzbLitLenAt src code ip = some ((lzbLitLen code (src.drop ip)).map fun (n, rest) =>
      (n, src.length - rest.length)) := by
  rw [lzbLitLenAt, lzbLitLen, getVarintAt_eq]
  split
  · -- Both read the same varint, and both add it with the same check.
    cases getVarint (src.drop ip) with
    | none => rfl
    | some read =>
      obtain ⟨ext, rest⟩ := read
      simp only [Option.map_some, Option.bind_some]
      split <;> rfl
  · -- The length stands in the token, and nothing is read.
    have position : src.length - (src.length - ip) = ip := by omega
    simp [position]

theorem lzbMatchLenAt_eq {src : Bytes} {code ip : Nat} (inside : ip ≤ src.length) :
    lzbMatchLenAt src code ip = some ((lzbMatchLen code (src.drop ip)).map fun (n, rest) =>
      (n, src.length - rest.length)) := by
  rw [lzbMatchLenAt, lzbMatchLen, getVarintAt_eq]
  split
  · -- Both read the same varint, and both add it with the same check.
    cases getVarint (src.drop ip) with
    | none => rfl
    | some read =>
      obtain ⟨ext, rest⟩ := read
      simp only [Option.map_some, Option.bind_some]
      split <;> rfl
  · -- The length stands in the token, and nothing is read.
    have position : src.length - (src.length - ip) = ip := by omega
    simp [position]

/-- A copy that fits loads only bytes that have been written before. -/
theorem copyBytesAt_eq {cap dist n : Nat} {dst : Bytes} (positive : 1 ≤ dist ∨ n = 0)
    (reach : dist ≤ dst.length) (room : dst.length + n ≤ cap) :
    copyBytesAt cap dist n dst = some (copyBytes dist n dst) := by
  -- Byte by byte: the source of each is in front of the place it is written to.
  induction n generalizing dst with
  | zero => rfl
  | succ n ih =>
    have inside : dst.length - dist < dst.length := by omega
    rw [copyBytesAt, sizeSub, if_pos reach, Option.bind_some, loadByte,
      List.getElem?_eq_getElem inside, Option.bind_some, storeBytes,
      if_pos (by rw [List.length_singleton]; omega), Option.bind_some,
      ih (.inl (by omega)) (by rw [List.length_append]; omega)
        (by rw [List.length_append, List.length_singleton]; omega), copyBytes, ld8,
      List.getD_eq_getElem?_getD, List.getElem?_eq_getElem inside, Option.getD_some]

/-- So does a match copy, whose first part stays inside the dictionary. -/
theorem copyMatchAt_eq {dict dst : Bytes} {cap dist mlen : Nat} (positive : 1 ≤ dist)
    (reach : dist ≤ dst.length + dict.length) (room : dst.length + mlen ≤ cap) :
    copyMatchAt dict cap dst dist mlen = some (copyMatch dict dst dist mlen) := by
  rw [copyMatchAt, copyMatch]
  dsimp only
  split
  · -- The match begins in the dictionary, which gives as much as it has.
    generalize taken : (if dist - dst.length < mlen then dist - dst.length else mlen) = fromDict
    have bounds : fromDict ≤ mlen ∧ fromDict ≤ dist - dst.length ∧
        (1 ≤ fromDict ∨ fromDict = mlen) := by
      subst taken
      split <;> omega
    have length : (slice dict (dict.length - (dist - dst.length)) fromDict).length = fromDict := by
      rw [slice, List.length_take, List.length_drop]
      omega
    rw [sizeSub, if_pos (by omega), Option.bind_some, loadBytes, if_pos (by omega),
      Option.bind_some, storeBytes, length, if_pos (by omega), Option.bind_some]
    -- What is left after the dictionary's part starts over at the output's first byte.
    refine copyBytesAt_eq ?_ (le_refl _) (by rw [List.length_append, length]; omega)
    rw [List.length_append, length]
    omega
  · -- It begins in the output.
    exact copyBytesAt_eq (.inl positive) (by omega) room

/-- Under its invariant the token loop by positions is the token loop on the unread input. -/
theorem lzbDecompressAtLoop_eq {src dict : Bytes} {cap fuel ip : Nat} {dst : Bytes}
    (inside : ip ≤ src.length) (enough : src.length - ip ≤ fuel) (within : dst.length ≤ cap) :
    lzbDecompressAtLoop src dict cap fuel ip dst =
      some (lzbDecompressLoop dict cap fuel (src.drop ip) dst) := by
  -- The induction is on the fuel, with the position inside the input and the output within the
  -- capacity. Every load, store and subtraction of the source is shown to succeed where it stands.
  induction fuel generalizing ip dst with
  | zero =>
    -- The input has ended.
    rw [lzbDecompressAtLoop, if_neg (by omega), List.drop_eq_nil_of_le (by omega)]
    rfl
  | succ fuel ih =>
    rw [lzbDecompressAtLoop]
    cases here : src.drop ip with
    | nil =>
      have := List.drop_eq_nil_iff.mp here
      rw [if_neg (by omega)]
      rfl
    | cons token inp =>
      -- The token is there to be loaded.
      obtain ⟨before, load, behind⟩ := loadByte_drop here
      rw [if_pos before, load, Option.bind_some, lzbLitLenAt_eq (by omega), behind,
        Option.bind_some, lzbDecompressLoop]
      cases lit : lzbLitLen (token >>> 4).toNat inp with
      | none => rfl
      | some read =>
        obtain ⟨litlen, rest⟩ := read
        have suffix : rest <:+ src.drop (ip + 1) := behind ▸ lzbLitLen_rest lit
        have unread := drop_of_suffix suffix
        have shorter := suffix.length_le
        rw [List.length_drop] at shorter
        generalize position : src.length - rest.length = ip' at unread
        have left : src.length - ip' = rest.length := by omega
        change (sizeSub src.length (src.length - rest.length)).bind _ = _
        rw [position, sizeSub, if_pos (by omega), Option.bind_some, sizeSub, if_pos within,
          Option.bind_some, left]
        by_cases cut : litlen > rest.length
        · rw [if_pos cut]
          exact congrArg some (if_pos cut).symm
        change _ = some (if litlen > rest.length then _ else
          if litlen > cap - dst.length then _ else _)
        rw [if_neg cut, if_neg cut]
        by_cases full : litlen > cap - dst.length
        · rw [if_pos full, if_pos full]
        rw [if_neg full, if_neg full]
        -- The literals are there to be loaded, and there is room to store them.
        have lits : slice src ip' litlen = rest.take litlen := by rw [slice, unread]
        have length : (rest.take litlen).length = litlen := List.length_take_of_le (by omega)
        rw [loadBytes, if_pos (by omega), Option.bind_some, lits, storeBytes, length,
          if_pos (by omega), Option.bind_some]
        split; · rfl
        have next : src.drop (ip' + litlen) = rest.drop litlen := by
          rw [← List.drop_drop, unread]
        rw [getVarintAt_eq, next, Option.bind_some]
        dsimp only
        cases far : getVarint (rest.drop litlen) with
        | none => rfl
        | some read =>
          -- The distance has been read behind the literals.
          obtain ⟨dist, rest'⟩ := read
          obtain ⟨suffix', shorter'⟩ := getVarintLoop_rest far
          have unread' := drop_of_suffix (next.symm ▸ suffix')
          rw [List.length_drop] at shorter'
          rw [Option.map_some]
          dsimp only
          split; · rfl
          rename_i positive
          have positive : 1 ≤ dist.toNat := by
            have := mt UInt64.toNat_inj.mp positive
            rw [UInt64.toNat_zero] at this
            omega
          rw [lzbMatchLenAt_eq (by omega), unread', Option.bind_some]
          cases long : lzbMatchLen (token &&& 0x0F).toNat rest' with
          | none => rfl
          | some read =>
            obtain ⟨mlen, rest''⟩ := read
            have suffix'' := lzbMatchLen_rest long
            have unread'' := drop_of_suffix (unread'.symm ▸ suffix'')
            have shorter'' := suffix''.length_le
            have here : (dst ++ rest.take litlen).length = dst.length + litlen := by
              rw [List.length_append, length]
            change (sizeSub cap (dst ++ rest.take litlen).length).bind _ = _
            rw [sizeSub, here, if_pos (by omega), Option.bind_some]
            change _ = some (if dist.toNat > dst.length + litlen + dict.length then _ else
              if mlen > cap - (dst.length + litlen) then _ else _)
            by_cases reach : dist.toNat > dst.length + litlen + dict.length
            · rw [if_pos reach, if_pos reach]
            rw [if_neg reach, if_neg reach]
            by_cases room : mlen > cap - (dst.length + litlen)
            · rw [if_pos room, if_pos room]
            -- The distance has been checked, so the second look at it changes nothing.
            have copied : (copyMatch dict (dst ++ rest.take litlen) dist.toNat mlen).length ≤ cap := by
              rw [length_copyMatch (by omega), here]
              omega
            rw [if_neg room, if_neg (by omega), if_neg room,
              copyMatchAt_eq positive (by omega) (by omega), Option.bind_some,
              ih (by omega) (by omega) copied, unread'']

/-- No access of the decoder leaves its buffer, no difference of sizes wraps and the loop ends:
with every access checked it computes the same result. -/
theorem lzbDecompressAt_eq (cap : Nat) (payload : Bytes) (ddict : Option LzbDdict) :
    lzbDecompressAt cap payload ddict = some (lzbDecompress cap payload ddict) :=
  lzbDecompressAtLoop_eq (Nat.zero_le _) (le_refl _) (Nat.zero_le cap)

end Accesses

/-- On every payload, dictionary and capacity the decoder ends without an access out of range and
within its capacity, and it succeeds exactly where the reference has a result that fits, with that
result. -/
theorem lzbDecompress_reference (cap : Nat) (payload : Bytes) (ddict : Option LzbDdict) :
    lzbDecompressAt cap payload ddict = some (lzbDecompress cap payload ddict) ∧
      (lzbDecompress cap payload ddict).2.length ≤ cap ∧
      ∀ out, lzbDecompress cap payload ddict = (.ok, out) ↔
        lzbReference ((ddict.map LzbDdict.data).getD []) payload = some out ∧ out.length ≤ cap :=
  ⟨lzbDecompressAt_eq cap payload ddict, lzbDecompress_within cap payload ddict,
    fun _ => lzbDecompress_ok_iff⟩

end Xq

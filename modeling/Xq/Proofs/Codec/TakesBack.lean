import Xq.Proofs.Codec.LzeRoundTrip

/-! What the container relies on in a codec: in every context its own calls lead to, its decoder
takes back what its encoder has written. -/

namespace Xq

/-- The decoder of a codec takes back what its encoder has written, over the same dictionary.
`GoodC` and `GoodD` hold of the contexts that calls on blocks and dictionaries lead to. -/
structure CodecVt.TakesBack (v : CodecVt) (GoodC : Cctx → Prop) (GoodD : Dctx → Prop) : Prop where
  cctx : ∀ heap, GoodC ((v.cctxNew.map fun cctxNew => cctxNew heap).getD .null)
  dctx : GoodD (v.dctxNew.getD .null)
  compresses : ∀ c cap src level cdict, GoodC c → src.length ≤ blockSizeMax →
    GoodC (v.compress c cap src level cdict).2
  decompresses : ∀ d cap src expectedLen ddict, GoodD d →
    GoodD (v.decompress d cap src expectedLen ddict).2
  bound : ∀ n ≤ blockSizeMax, n ≤ v.bound n
  nothing : ∀ d room expectedLen ddict, (v.decompress d room [] expectedLen ddict).1.2 = []
  back : ∀ {dict : Option Bytes} {cdict : Option Cdict} {ddict : Option Ddict},
    v.Digests dict cdict ddict → (∀ bytes ∈ dict, bytes.length ≤ dictSizeMax) →
    ∀ {c : Cctx} {d : Dctx} {cap room : Nat} {src out : Bytes} {level : Int}, GoodC c → GoodD d →
      src.length ≤ blockSizeMax → src.length ≤ room →
      (v.compress c cap src level cdict).1 = (.ok, out) →
      (v.decompress d room out src.length ddict).1 = (.ok, src)

/-- Copying takes back what it has copied. -/
theorem storedVt_takesBack : storedVt.TakesBack Cctx.Staged fun _ => True where
  cctx _ := trivial
  dctx := trivial
  compresses _ _ _ _ _ good _ := good
  decompresses _ _ _ _ _ good := good
  bound _ _ := le_rfl
  nothing _ room expectedLen _ := by
    show (storedDecompress room [] expectedLen).2 = []
    rw [storedDecompress]
    split_ifs
    all_goals rfl
  back := by
    intro _ _ _ _ _ c d cap room src out _ _ _ _ enough made
    change storedCompress cap src = _ at made
    unfold storedCompress at made
    split at made
    · cases made
    · obtain rfl := (Prod.mk.inj made).2
      show storedDecompress room src src.length = _
      rw [storedDecompress, if_neg (not_not.mpr rfl), if_neg (by omega)]

/-- The bytes of a digest of a dictionary are within the range of a match distance. -/
theorem digests_small {v : CodecVt} (codec : v = lzbVt ∨ v = lzeVt) {dict : Option Bytes}
    {cdict : Option Cdict} {ddict : Option Ddict} (digests : v.Digests dict cdict ddict)
    (sized : ∀ bytes ∈ dict, bytes.length ≤ dictSizeMax) {src : Bytes}
    (block : src.length ≤ blockSizeMax) :
    src.length + (((cdict.bind Cdict.asLzb).map LzbCdict.data).getD []).length < 2 ^ 64 := by
  -- A block and a dictionary together are far below the range of a distance.
  have most : blockSizeMax = 2 ^ 28 := rfl
  have most' : dictSizeMax = 2 ^ 28 := rfl
  rw [(digests_same codec digests).2]
  cases dict with
  | none =>
    rw [Option.getD_none, List.length_nil]
    omega
  | some bytes =>
    have := sized bytes rfl
    rw [Option.getD_some]
    omega

theorem lzbVt_takesBack : lzbVt.TakesBack Cctx.Staged fun _ => True where
  cctx _ := trivial
  dctx := trivial
  compresses c cap src level cdict good small :=
    CodecVt.use_staged (u := ⟨cap, src, level, cdict⟩) (.inl rfl) good small
  decompresses _ _ _ _ _ good := good
  bound n _ := by
    show n ≤ lzbBound n
    rw [lzbBound]
    omega
  nothing _ _ _ _ := rfl
  back := by
    intro dict cdict ddict digests sized c d cap room src out level _ _ block enough made
    obtain ⟨dbytes, cbytes⟩ := digests_same (.inl rfl) digests
    have small := digests_small (.inl rfl) digests sized block
    cases c with
    | lzb c => exact (lzbCompress_decompress (dbytes.trans cbytes.symm) small enough made).1
    | _ => cases made

/-- A decompression context of the lze codec. -/
def Dctx.OfLze (d : Dctx) : Prop := ∃ l, d = .lze l

theorem lzeVt_takesBack : lzeVt.TakesBack Cctx.Staged Dctx.OfLze where
  cctx _ := Nat.zero_le _
  dctx := ⟨lzeDctxNew, rfl⟩
  compresses c cap src level cdict good small :=
    CodecVt.use_staged (u := ⟨cap, src, level, cdict⟩) (.inr rfl) good small
  decompresses := by
    rintro d cap src expectedLen ddict ⟨l, rfl⟩
    exact ⟨_, rfl⟩
  bound n _ := by
    show n ≤ lzeBound n
    rw [lzeBound, lzbBound]
    omega
  nothing d _ _ _ := by
    cases d
    all_goals rfl
  back := by
    intro dict cdict ddict digests sized c d cap room src out level good good' block enough made
    obtain ⟨dbytes, cbytes⟩ := digests_same (.inr rfl) digests
    have small := digests_small (.inr rfl) digests sized block
    obtain ⟨l, rfl⟩ := good'
    cases c with
    | lze c =>
      exact lzeCompress_decompress (dbytes.trans cbytes.symm) small good block enough made
    | _ => cases made

/-- Every codec of the table takes back what it has written, once the external one does. -/
theorem codecGet_takesBack {zstd : Option CodecVt}
    (external : ∀ v ∈ zstd, ∃ GoodC GoodD, v.TakesBack GoodC GoodD) {id : UInt8} {v : CodecVt}
    (found : codecGet zstd id = some v) : ∃ GoodC GoodD, v.TakesBack GoodC GoodD := by
  -- The table has three codecs of its own, and the external one if it is built in.
  have listed : v ∈ codecs zstd := List.mem_of_find?_eq_some found
  simp only [codecs, List.mem_append, List.mem_cons, List.not_mem_nil, or_false,
    Option.mem_toList] at listed
  rcases listed with (rfl | rfl | rfl) | listed
  · exact ⟨_, _, storedVt_takesBack⟩
  · exact ⟨_, _, lzbVt_takesBack⟩
  · exact ⟨_, _, lzeVt_takesBack⟩
  · exact external v listed

end Xq

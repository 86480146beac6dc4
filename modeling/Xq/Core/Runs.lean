import Xq.Core.Reader
import Xq.Core.Repair

/-! The states each of the three decode paths can be in, over all the calls a caller may make. -/

namespace Xq

variable (zstd : Option CodecVt)

/-- The states of a decoder over one source: created, then read any number of times. The states
inside a read, around its calls of `next_block`, belong to the run too. -/
inductive DecoderRun (src : Source) (memLimit : Nat) : Decoder → Prop
  | create {d : Decoder} : decoderCreate zstd src memLimit = .ok d → DecoderRun src memLimit d
  | nextBlock {d : Decoder} : DecoderRun src memLimit d →
    DecoderRun src memLimit (Decoder.nextBlock zstd d).2
  | taken {d : Decoder} (rawPos : Nat) : DecoderRun src memLimit d →
    DecoderRun src memLimit { d with rawPos := rawPos }
  | read {d : Decoder} (len : Nat) : DecoderRun src memLimit d →
    DecoderRun src memLimit (Decoder.read zstd d len).2

/-- The states of a reader on one file: while it is opened, and then over any reads and any
verifications. A failed opening step is a state too, for the codec calls it has made. -/
inductive ReaderRun (file : Bytes) : Reader → Prop
  | index {hdr : FileHeader} {footer : Footer} {codec : CodecVt} {ip : IndexPreamble}
    {entries : Bytes} : loadTail file = .ok (hdr, footer) →
      codecGet zstd hdr.codecId = some codec → loadIndex file hdr footer = .ok (ip, entries) →
      ReaderRun file (readerBlank file hdr footer codec ip entries)
  | loadMeta {r : Reader} (memLimit : Nat) : ReaderRun file r →
    ReaderRun file (Reader.loadMeta zstd r memLimit).2
  | buffers {r : Reader} (opts : Option ReaderOpts) (cpus : Nat) : ReaderRun file r →
    ReaderRun file (r.setupBuffers opts cpus).2
  | pread {r : Reader} (n off : Nat) : ReaderRun file r →
    ReaderRun file (Reader.pread zstd r n off).2
  | verify {r : Reader} : ReaderRun file r → ReaderRun file (Reader.verify zstd r).2.2

/-- The states of a repair on one file: the header read, the dictionary looked for, and then any
headers decoded at any offsets. -/
inductive RepairRun (file : Bytes) : RepairCtx → Prop
  | header {c : RepairCtx} : repairReadHeader zstd file = .ok c → RepairRun file c
  | dict {c : RepairCtx} (scanFrom scanTo : Nat) : RepairRun file c →
    RepairRun file (RepairCtx.loadDict zstd c scanFrom scanTo).2
  | block {c : RepairCtx} (off : Nat) (b : BlockHeader) : RepairRun file c →
    RepairRun file (RepairCtx.decodeAt zstd c off b).2

end Xq

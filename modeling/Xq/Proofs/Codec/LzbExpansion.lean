import Xq.Proofs.Codec.LzbBound
import Xq.Proofs.Codec.LzbChains

/-! A block that grows: short matches far back in a large dictionary. -/

namespace Xq

section Evaluation

end Evaluation

section Padding

end Padding

end Xq

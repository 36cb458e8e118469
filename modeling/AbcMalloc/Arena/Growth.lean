import AbcMalloc.Arena.Predictor
import AbcMalloc.Buddy.Complete
import AbcMalloc.Va.Model

/-! Growth of the huge tier: the size that `push` passes to `__buf_expand_exact`, the chunk that
`__get_kernel_chunk` carves for it from a 64-bit reservation, and the `__buddy_list` over it.
`__class_huge` is 2^18, `__class_1mb` 2^20 and `__class_gb` 2^29. -/
namespace AbcMalloc.Arena
open Foundation

end AbcMalloc.Arena

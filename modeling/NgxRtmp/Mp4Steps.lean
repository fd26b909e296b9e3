import NgxRtmp.Mp4Tables

namespace NgxRtmp.Mp4

open RunLength List

def TimeAt (b : Tables) (k : Nat) (cr : Cursor) : Prop :=
  cr.pos = k ∧ Sits ((timeRuns b.times).map Prod.fst) k cr.timePos cr.timeCount ∧ cr.timestamp = UInt32.ofNat (b.dts k)

def KeyAt (t : Track) (k : Nat) (cr : Cursor) : Prop :=
  match t.keys with
  | none => cr.key = false ∧ cr.keyPos = 0
  | some keys => cr.keyPos = (keys.takeWhile fun ke => ke.toNat ≤ k).length ∧ (cr.key = true ↔ ∃ ke ∈ keys, ke.toNat = k+1)

def ChunkAt (b : Tables) (k : Nat) (cr : Cursor) : Prop :=
  1 ≤ cr.chunk ∧ Sits b.perChunk k (cr.chunk-1) cr.chunkCount ∧ ∃ d, Sits (b.runs.map Prod.fst) (cr.chunk-1) cr.chunkPos d

def SizeAt (b : Tables) (k : Nat) (cr : Cursor) : Prop :=
  b.sampleSizes[k]? = some cr.size ∧ cr.sizePos = if b.sizes.sampleSize ≠ 0 then 0 else k

def begins (b : Tables) (k : Nat) (cr : Cursor) (offset : UInt64) : Prop :=
  ∃ base, b.offsets[cr.chunk-1]? = some base ∧
    offset = UInt64.ofNat (base+((b.sampleSizes.drop (k-cr.chunkCount)).take cr.chunkCount).sum)

-- The counts are those of the table, or those next_delay makes of them.
def DelayAt (counts : List Nat → List Nat) (t : Track) (k : Nat) (cr : Cursor) : Prop :=
  match t.delays with
  | none => cr.delay = 0 ∧ cr.delayPos = 0 ∧ cr.delayCount = 0
  | some delays => Sits (counts ((delayRuns delays).map Prod.fst)) k cr.delayPos cr.delayCount ∧
      (delayRuns delays)[cr.delayPos]?.map Prod.snd = some cr.delay

structure At (t : Track) (b : Tables) (k : Nat) (cr : Cursor) : Prop where
  time : TimeAt b k cr
  key : KeyAt t k cr
  chunk : ChunkAt b k cr
  size : SizeAt b k cr
  offset : begins b k cr cr.offset
  delay : DelayAt walked t k cr

-- The cursor at sample `k` but for the delays, on which nothing else depends.
structure Placed (t : Track) (b : Tables) (k : Nat) (cr : Cursor) : Prop where
  time : TimeAt b k cr
  key : KeyAt t k cr
  chunk : ChunkAt b k cr
  size : SizeAt b k cr
  offset : begins b k cr cr.offset

theorem At.placed (at_k : At t b k cr) : Placed t b k cr := ⟨at_k.time,at_k.key,at_k.chunk,at_k.size,at_k.offset⟩

def entryAfter (b : Tables) (chunk chunkPos : Nat) : Nat :=
  match b.chunks[chunkPos+1]? with
  | some nce => if chunk+1 ≥ nce.firstChunk.toNat then chunkPos+1 else chunkPos
  | none => chunkPos

theorem dts_step {b : Tables} (sits : Sits ((timeRuns b.times).map Prod.fst) k j c) (entry : b.times[j]? = some te) :
    b.dts (k+1) = b.dts k+te.sampleDelta.toNat := by
  have value : (expand (timeRuns b.times))[k]? = some te.sampleDelta.toNat := by
    rw [expand_at sits]
    simp [timeRuns,entry]
  rw [Tables.dts,take_add_one,value,sum_append]
  simp [Tables.dts]

theorem time_entry {b : Tables} (sits : Sits ((timeRuns b.times).map Prod.fst) k j c) :
    ∃ te, b.times[j]? = some te ∧ ((timeRuns b.times).map Prod.fst)[j]? = some te.sampleCount.toNat := by
  obtain ⟨m,entry,_,_⟩ := sits_iff.mp sits
  cases found : b.times[j]? with
  | none => simp [timeRuns,found] at entry
  | some te => exact ⟨te,rfl,by simp [timeRuns,found]⟩

theorem delay_entry (sits : Sits (walked ((delayRuns delays).map Prod.fst)) k j c) :
    ∃ de, delays[j]? = some de ∧ (walked ((delayRuns delays).map Prod.fst))[j]? = some (max 1 de.sampleCount.toNat) ∧
      (delayRuns delays)[j]?.map Prod.snd = some de.sampleOffset ∧
      ∀ m, (walked ((delayRuns delays).map Prod.fst))[j+1]? = some m → 0 < m := by
  obtain ⟨m,entry,less,_⟩ := sits_iff.mp sits
  obtain ⟨⟨count,listed,same⟩,following⟩ := walked_at entry (Nat.zero_lt_of_lt less)
  cases found : delays[j]? with
  | none => simp [delayRuns,found] at listed
  | some de =>
    obtain rfl : de.sampleCount.toNat = count := by simpa [delayRuns,found] using listed
    exact ⟨de,rfl,by rw [entry,same],by simp [delayRuns,found],following⟩

theorem keys_at {keys : List UInt32} (k : Nat) (sorted : keys.Pairwise (· < ·)) :
    ((∃ ke ∈ keys, ke.toNat = k+1) ↔ ∃ ke, keys[(keys.takeWhile fun ke => ke.toNat ≤ k).length]? = some ke ∧ ke.toNat = k+1) ∧
    (keys.takeWhile fun ke => ke.toNat ≤ k+1).length =
      (keys.takeWhile fun ke => ke.toNat ≤ k).length+if ∃ ke ∈ keys, ke.toNat = k+1 then 1 else 0 := by
  induction keys with
  | nil => simp
  | cons first keys ih =>
    obtain ⟨before,later⟩ := pairwise_cons.mp sorted
    have above : ∀ ke ∈ keys, first.toNat < ke.toNat := fun ke inside => UInt32.lt_iff_toNat_lt.mp (before ke inside)
    by_cases passed : first.toNat ≤ k
    · obtain ⟨here,count⟩ := ih later
      have other : first.toNat ≠ k+1 := by omega
      have within : (∃ ke ∈ first::keys, ke.toNat = k+1) ↔ ∃ ke ∈ keys, ke.toNat = k+1 := by simp [other]
      simp only [takeWhile_cons,passed,Nat.le_succ_of_le passed,decide_true,if_true,length_cons,
        getElem?_cons_succ,within]
      exact ⟨here,by rw [count]; omega⟩
    · have only : (∃ ke ∈ first::keys, ke.toNat = k+1) ↔ first.toNat = k+1 := by
        constructor
        · rintro ⟨ke,inside,same⟩
          rcases mem_cons.mp inside with rfl | inside
          · exact same
          · have less := above ke inside
            omega
        · intro same
          exact ⟨first,mem_cons_self,same⟩
      simp only [only,takeWhile_cons,passed,decide_false,Bool.false_eq_true,if_false,length_nil,
        getElem?_cons_zero,Option.some.injEq,exists_eq_left',true_and,zero_add]
      by_cases same : first.toNat = k+1
      · have none : (keys.takeWhile fun ke => ke.toNat ≤ k+1) = [] := by
          cases keys with
          | nil => rfl
          | cons second keys =>
            have less := above second mem_cons_self
            rw [takeWhile_cons,if_neg (by simp; omega)]
        simp [same,none]
      · have beyond : ¬ first.toNat ≤ k+1 := by omega
        simp [same,beyond]

theorem sizes_step {sizes : List Nat} (entry : sizes[k]? = some size) (le : s ≤ k) :
    ((sizes.drop (k+1-(s+1))).take (s+1)).sum = ((sizes.drop (k-s)).take s).sum+size := by
  rw [Nat.add_sub_add_right,take_add_one,getElem?_drop,Nat.sub_add_cancel le,entry,sum_append]
  simp

theorem sits_place (sits : Sits counts k j c) : c ≤ k ∧ j < counts.length := by
  obtain ⟨m,entry,_,sum⟩ := sits_iff.mp sits
  exact ⟨by omega,(List.getElem?_eq_some_iff.mp entry).1⟩

theorem nextTime_frame : ∃ lastTimestamp timestamp notFirst timePos timeCount pos, cr.pos ≤ pos ∧
    (nextTime t cr).2 = {cr with lastTimestamp:=lastTimestamp,timestamp:=timestamp,notFirst:=notFirst,timePos:=timePos
                                 timeCount:=timeCount,pos:=pos} := by
  unfold nextTime
  split
  · exact ⟨_,_,_,_,_,_,le_rfl,rfl⟩
  · split
    · exact ⟨_,_,_,_,_,_,le_rfl,rfl⟩
    · dsimp only
      split
      · exact ⟨_,_,_,_,_,_,Nat.le_succ _,rfl⟩
      · exact ⟨_,_,_,_,_,_,Nat.le_succ _,rfl⟩

theorem nextKey_frame : ∃ key keyPos, nextKey t cr = (true,{cr with key:=key,keyPos:=keyPos}) := by
  unfold nextKey
  split
  · exact ⟨_,_,rfl⟩
  · cases cr.key with
    | true =>
      dsimp only
      split
      · exact ⟨_,_,rfl⟩
      · exact ⟨_,_,rfl⟩
    | false =>
      dsimp only
      split
      · exact ⟨_,_,rfl⟩
      · exact ⟨_,_,rfl⟩

theorem nextDelay_frame : ∃ delay delayPos delayCount,
    nextDelay t cr = (true,{cr with delay:=delay,delayPos:=delayPos,delayCount:=delayCount}) := by
  unfold nextDelay
  split
  · exact ⟨_,_,_,rfl⟩
  · split
    · exact ⟨_,_,_,rfl⟩
    · dsimp only
      split
      · split
        · exact ⟨_,_,_,rfl⟩
        · exact ⟨_,_,_,rfl⟩
      · split
        · exact ⟨_,_,_,rfl⟩
        · exact ⟨_,_,_,rfl⟩

section
variable {t : Track} {b : Tables} {n : Nat} (ok : Consistent t b n)
include ok

theorem nextTime_steps (at_k : TimeAt b k cr) (more : k+1 < n) :
    ∃ timestamp timePos timeCount, nextTime t cr = (true,{cr with
      lastTimestamp:=cr.timestamp,timestamp:=timestamp,notFirst:=true,timeCount:=timeCount,timePos:=timePos,pos:=k+1}) ∧
      TimeAt b (k+1) {cr with timestamp:=timestamp,timeCount:=timeCount,timePos:=timePos,pos:=k+1} := by
  obtain ⟨rfl,sits,stamp⟩ := at_k
  obtain ⟨te,entry,count⟩ := time_entry sits
  have reached : cr.timestamp+te.sampleDelta = UInt32.ofNat (b.dts (cr.pos+1)) := by
    rw [dts_step sits entry,UInt32.ofNat_add,stamp,UInt32.ofNat_toNat]
  simp only [nextTime,ok.times,entry]
  by_cases full : cr.timeCount+1 ≥ te.sampleCount.toNat
  · rw [if_pos full]
    refine ⟨_,_,_,rfl,rfl,?_,reached⟩
    exact sits_turn sits count (by omega) ok.times_positive (by rw [ok.timeSamples]; exact more)
  · rw [if_neg full]
    exact ⟨_,_,_,rfl,rfl,sits_on sits count (by omega),reached⟩

theorem nextKey_steps (at_k : KeyAt t k cr) (reached : cr.pos = k+1) :
    ∃ key keyPos, nextKey t cr = (true,{cr with key:=key,keyPos:=keyPos}) ∧ KeyAt t (k+1) {cr with key:=key,keyPos:=keyPos} := by
  unfold KeyAt at at_k ⊢
  cases table : t.keys with
  | none =>
    rw [table] at at_k
    exact ⟨cr.key,cr.keyPos,by simp [nextKey,table],at_k⟩
  | some keys =>
    rw [table] at at_k
    simp only at at_k ⊢
    obtain ⟨place,flag⟩ := at_k
    have sorted := (ok.keys keys table).2
    have passed := (keys_at k sorted).2
    have here := (keys_at (k+1) sorted).1
    -- the key that was just left is counted as passed
    have moved : (if cr.key then {cr with keyPos:=cr.keyPos+1} else cr) =
        {cr with keyPos:=(keys.takeWhile fun ke => ke.toNat ≤ k+1).length} := by
      by_cases key : cr.key = true
      · rw [if_pos key,passed,if_pos (flag.mp key),← place]
      · rw [if_neg key,passed,if_neg (fun found => key (flag.mpr found)),add_zero,← place]
    simp only [nextKey,table,moved]
    cases entry : keys[(keys.takeWhile fun ke => ke.toNat ≤ k+1).length]? with
    | none =>
      refine ⟨false,_,rfl,rfl,?_⟩
      rw [here,entry]
      simp
    | some ke =>
      refine ⟨_,_,rfl,rfl,?_⟩
      rw [here,entry]
      simp only [beq_iff_eq,Option.some.injEq,exists_eq_left',reached]
      exact eq_comm

theorem chunk_entry (sits : Sits (b.runs.map Prod.fst) c i d) : ∃ ce, b.chunks[i]? = some ce ∧
    (b.runs.map Prod.fst)[i]? =
      some ((match b.chunks[i+1]? with | some e' => e'.firstChunk.toNat | none => b.offsets.length+1)-ce.firstChunk.toNat) ∧
    b.perChunk[c]? = some ce.samplesPerChunk.toNat ∧ ce.firstChunk.toNat+d = c+1 := by
  obtain ⟨m,entry,_,sum⟩ := sits_iff.mp sits
  have inside : i < b.chunks.length := by
    have bound := (List.getElem?_eq_some_iff.mp entry).1
    rwa [length_map,Tables.runs,chunkRuns_length] at bound
  have found : b.chunks[i]? = some b.chunks[i] := getElem?_eq_getElem inside
  have run := chunkRuns_get b.offsets.length found
  have first := chunkRuns_first b.offsets.length ok.firstChunk ok.increasing found
  refine ⟨_,found,?_,?_,?_⟩
  · rw [Tables.runs,getElem?_map,run]
    rfl
  · rw [Tables.perChunk,expand_at sits,Tables.runs,run]
    rfl
  · rw [Tables.runs] at sum
    omega

theorem updateOffset_finds (some_chunk : 1 ≤ cr.chunk) (base : b.offsets[cr.chunk-1]? = some offset) :
    updateOffset t cr = (true,{cr with offset:=UInt64.ofNat offset,size:=0}) := by
  unfold updateOffset
  rw [if_neg (by omega)]
  rcases ok.offsets with ⟨offsets,table,same⟩ | ⟨none,offsets,table,same⟩
  · rw [same,getElem?_map] at base
    cases entry : offsets[cr.chunk-1]? with
    | none => rw [entry] at base; cases base
    | some found =>
      rw [entry] at base
      cases base
      simp [table,entry]
  · rw [same,getElem?_map] at base
    cases entry : offsets[cr.chunk-1]? with
    | none => rw [entry] at base; cases base
    | some found =>
      rw [entry] at base
      cases base
      simp only [none,table,entry,UInt64.ofNat_toNat]

theorem updateOffset_fails (beyond : b.offsets.length ≤ cr.chunk-1) : (updateOffset t cr).1 = false := by
  unfold updateOffset
  split
  · rfl
  · rcases ok.offsets with ⟨offsets,table,same⟩ | ⟨none,offsets,table,same⟩
    · rw [same,length_map] at beyond
      simp only [table,getElem?_eq_none beyond]
    · rw [same,length_map] at beyond
      simp only [none,table,getElem?_eq_none beyond]

theorem next_chunk_entry (run : Sits (b.runs.map Prod.fst) (chunk-1) chunkPos d) (some_chunk : 1 ≤ chunk)
    (inside : chunk < b.offsets.length) : ∃ d', Sits (b.runs.map Prod.fst) (chunk+1-1) (entryAfter b chunk chunkPos) d' := by
  obtain ⟨ce,_,count,_,number⟩ := chunk_entry ok run
  have index : chunk+1-1 = chunk-1+1 := by omega
  have more : chunk-1+1 < (b.runs.map Prod.fst).sum := by rw [ok.runs_total]; omega
  rw [index,entryAfter]
  cases following : b.chunks[chunkPos+1]? with
  | none =>
    rw [following] at count
    simp only at count ⊢
    exact ⟨d+1,sits_on run count (by omega)⟩
  | some nce =>
    rw [following] at count
    simp only at count ⊢
    split
    · exact ⟨0,sits_turn run count (by omega) ok.runs_positive more⟩
    · exact ⟨d+1,sits_on run count (by omega)⟩

theorem nextChunk_turns (entry : b.chunks[cr.chunkPos]? = some ce) (full : cr.chunkCount+1 ≥ ce.samplesPerChunk.toNat) :
    nextChunk t cr = updateOffset t {cr with chunkCount:=0,chunk:=cr.chunk+1,chunkPos:=entryAfter b cr.chunk cr.chunkPos} := by
  simp only [nextChunk,ok.chunks,entry,entryAfter]
  rw [if_pos full]
  cases following : b.chunks[cr.chunkPos+1]? with
  | none => rfl
  | some nce =>
    by_cases reached : cr.chunk+1 ≥ nce.firstChunk.toNat
    · simp only [if_pos reached]
    · simp only [if_neg reached]

theorem nextChunk_steps (at_k : ChunkAt b k cr) (size : b.sampleSizes[k]? = some cr.size) (offset : begins b k cr cr.offset)
    (more : k+1 < n) :
    ∃ chunk chunkPos chunkCount offset size, nextChunk t cr = (true,{cr with
      chunk:=chunk,chunkPos:=chunkPos,chunkCount:=chunkCount,offset:=offset,size:=size}) ∧
      ChunkAt b (k+1) {cr with chunk:=chunk,chunkPos:=chunkPos,chunkCount:=chunkCount} ∧
      begins b (k+1) {cr with chunk:=chunk,chunkCount:=chunkCount} (offset+UInt64.ofNat size) := by
  obtain ⟨some_chunk,sits,d,run⟩ := at_k
  obtain ⟨ce,entry,_,samples,_⟩ := chunk_entry ok run
  by_cases full : cr.chunkCount+1 ≥ ce.samplesPerChunk.toNat
  · have turned := sits_turn sits samples (by omega) ok.perChunk_positive (by rw [ok.chunkSamples]; exact more)
    have index : cr.chunk-1+1 = cr.chunk+1-1 := by omega
    rw [index] at turned
    have inside := (sits_place turned).2
    rw [ok.perChunk_length,Nat.add_sub_cancel] at inside
    have base : b.offsets[cr.chunk+1-1]? = some b.offsets[cr.chunk] := getElem?_eq_getElem inside
    rw [nextChunk_turns ok entry full,updateOffset_finds ok (by simp) base]
    exact ⟨_,_,_,_,_,rfl,⟨by simp,turned,next_chunk_entry ok run some_chunk inside⟩,_,base,by simp⟩
  · obtain ⟨base,chunk,same⟩ := offset
    simp only [nextChunk,ok.chunks,entry]
    rw [if_neg full]
    refine ⟨_,_,_,_,_,rfl,⟨some_chunk,sits_on sits samples (by omega),d,run⟩,base,chunk,?_⟩
    rw [sizes_step size (sits_place sits).1,same,← UInt64.ofNat_add,add_assoc]

theorem sampleSize_at (inside : k < n) : b.sampleSizes[k]? =
    some (if b.sizes.sampleSize ≠ 0 then b.sizes.sampleSize.toNat else (b.sizes.entries[k]?.getD 0).toNat) := by
  unfold Tables.sampleSizes
  by_cases same : b.sizes.sampleSize ≠ 0
  · rw [if_pos same,if_pos same,getElem?_replicate,if_pos (by rw [ok.sizeSamples]; exact inside)]
  · have listed := ok.sizeEntries (Decidable.not_not.mp same)
    have entry : b.sizes.entries[k]? = some b.sizes.entries[k] := getElem?_eq_getElem (by omega)
    rw [if_neg same,if_neg same,getElem?_map,entry]
    rfl

theorem nextSize_steps (place : cr.sizePos = if b.sizes.sampleSize ≠ 0 then 0 else k) (more : k+1 < n) :
    ∃ size sizePos, nextSize t cr = (true,{cr with offset:=cr.offset+UInt64.ofNat cr.size,size:=size,sizePos:=sizePos}) ∧
      SizeAt b (k+1) {cr with size:=size,sizePos:=sizePos} := by
  have reached := sampleSize_at ok more
  simp only [nextSize,ok.sizes]
  unfold SizeAt
  by_cases same : b.sizes.sampleSize ≠ 0
  · rw [if_pos same] at place reached ⊢
    exact ⟨_,_,rfl,reached,by rw [if_pos same]; exact place⟩
  · rw [if_neg same] at place reached ⊢
    rw [if_neg (by rw [place,ok.sizeSamples]; omega)]
    exact ⟨_,_,rfl,by rw [place]; exact reached,by rw [if_neg same,place]⟩

theorem nextDelay_steps (at_k : DelayAt walked t k cr) (more : k+1 < n) :
    ∃ delay delayPos delayCount, nextDelay t cr = (true,{cr with delay:=delay,delayPos:=delayPos,delayCount:=delayCount}) ∧
      DelayAt walked t (k+1) {cr with delay:=delay,delayPos:=delayPos,delayCount:=delayCount} := by
  unfold DelayAt at at_k ⊢
  cases table : t.delays with
  | none =>
    rw [table] at at_k
    exact ⟨_,_,_,by simp only [nextDelay,table],at_k⟩
  | some delays =>
    rw [table] at at_k
    simp only at at_k ⊢
    obtain ⟨sits,_⟩ := at_k
    obtain ⟨de,entry,count,value,positive⟩ := delay_entry sits
    have enough := walked_sum ((delayRuns delays).map Prod.fst)
    rw [ok.delays delays table] at enough
    simp only [nextDelay,table,entry]
    by_cases full : cr.delayCount+1 ≥ de.sampleCount.toNat
    · rw [if_pos full]
      have turned := sits_next sits count (by omega) positive (by omega)
      obtain ⟨nde,following,_,value',_⟩ := delay_entry turned
      simp only [following]
      exact ⟨_,_,_,rfl,turned,value'⟩
    · rw [if_neg full]
      simp only [entry]
      exact ⟨_,_,_,rfl,sits_on sits count (by omega),value⟩

theorem next_goes (at_k : Placed t b k cr) (more : k+1 < n) : ∃ cr',
    andThen (andThen (andThen (nextTime t cr) (nextKey t)) (nextChunk t)) (nextSize t) = (true,cr') ∧ Placed t b (k+1) cr' ∧
    (cr'.lastTimestamp = cr.timestamp ∧ cr'.notFirst = true) ∧
    cr'.delay = cr.delay ∧ cr'.delayPos = cr.delayPos ∧ cr'.delayCount = cr.delayCount := by
  obtain ⟨time,key,chunk,⟨size,sizePlace⟩,offset⟩ := at_k
  obtain ⟨timestamp,timePos,timeCount,timed,time'⟩ := nextTime_steps ok time more
  obtain ⟨flag,keyPos,keyed,key'⟩ := nextKey_steps ok (show KeyAt t k {cr with
    lastTimestamp:=cr.timestamp,timestamp:=timestamp,notFirst:=true,timeCount:=timeCount,timePos:=timePos,pos:=k+1} from key) rfl
  obtain ⟨number,chunkPos,chunkCount,start,left,chunked,chunk',offset'⟩ := nextChunk_steps ok (show ChunkAt b k {cr with
    lastTimestamp:=cr.timestamp,timestamp:=timestamp,notFirst:=true,timeCount:=timeCount,timePos:=timePos,pos:=k+1
    key:=flag,keyPos:=keyPos} from chunk) size offset more
  obtain ⟨size',sizePos,sized,at_size⟩ := nextSize_steps ok (show ({cr with
    lastTimestamp:=cr.timestamp,timestamp:=timestamp,notFirst:=true,timeCount:=timeCount,timePos:=timePos,pos:=k+1
    key:=flag,keyPos:=keyPos,chunk:=number,chunkPos:=chunkPos,chunkCount:=chunkCount,offset:=start,size:=left} : Cursor).sizePos =
      _ from sizePlace) more
  simp only [andThen,timed,keyed,chunked,sized]
  exact ⟨_,rfl,⟨time',key',chunk',at_size,offset'⟩,⟨rfl,rfl⟩,rfl,rfl,rfl⟩

theorem next_places (at_k : Placed t b k cr) (more : k+1 < n) : (next t cr).1 = true ∧ Placed t b (k+1) (next t cr).2 ∧
    (next t cr).2.lastTimestamp = cr.timestamp ∧ (next t cr).2.notFirst = true := by
  obtain ⟨cr',went,place,moved,_⟩ := next_goes ok at_k more
  obtain ⟨_,_,_,delayed⟩ := nextDelay_frame
  unfold next
  rw [went,andThen,delayed]
  exact ⟨rfl,⟨place.time,place.key,place.chunk,place.size,place.offset⟩,moved⟩

theorem next_steps (at_k : At t b k cr) (more : k+1 < n) : (next t cr).1 = true ∧ At t b (k+1) (next t cr).2 := by
  obtain ⟨cr',went,place,_,delay,delayPos,delayCount⟩ := next_goes ok at_k.placed more
  have before : DelayAt walked t k cr' := by
    unfold DelayAt
    rw [delay,delayPos,delayCount]
    exact at_k.delay
  obtain ⟨_,_,_,delayed,after⟩ := nextDelay_steps ok before more
  unfold next
  rw [went,andThen,delayed]
  exact ⟨rfl,⟨place.time,place.key,place.chunk,place.size,place.offset,after⟩⟩

theorem nextChunk_ends (at_k : ChunkAt b k cr) (last : k+1 = n) : (nextChunk t cr).1 = false := by
  obtain ⟨some_chunk,sits,d,run⟩ := at_k
  obtain ⟨ce,entry,_,samples,_⟩ := chunk_entry ok run
  have full : cr.chunkCount+1 ≥ ce.samplesPerChunk.toNat := by
    refine Nat.not_lt.mp fun room => ?_
    have on := sits_lt (sits_on sits samples room)
    rw [ok.chunkSamples,last] at on
    exact lt_irrefl n on
  have beyond : b.offsets.length ≤ cr.chunk+1-1 := by
    refine Nat.not_lt.mp fun inside => ?_
    have index : cr.chunk-1+1 < b.perChunk.length := by
      rw [ok.perChunk_length]
      omega
    have turned := sits_lt (sits_front sits samples (Nat.not_lt.mpr full) (getElem?_eq_getElem index)
      (ok.perChunk_positive _ (getElem_mem index)))
    rw [ok.chunkSamples,last] at turned
    exact lt_irrefl n turned
  rw [nextChunk_turns ok entry full]
  exact updateOffset_fails ok beyond

theorem next_ends (at_k : Placed t b k cr) (last : k+1 = n) : (next t cr).1 = false := by
  have chunked : (andThen (andThen (nextTime t cr) (nextKey t)) (nextChunk t)).1 = false := by
    obtain ⟨_,_,_,_,_,_,_,frame⟩ := nextTime_frame
    cases timed : nextTime t cr with
    | mk moved timed' =>
      rw [timed] at frame
      cases moved with
      | false => rfl
      | true =>
        obtain ⟨_,_,keyed⟩ := nextKey_frame
        rw [andThen,keyed]
        cases frame
        exact nextChunk_ends ok at_k.chunk last
  unfold next
  cases ended : andThen (andThen (nextTime t cr) (nextKey t)) (nextChunk t) with
  | mk moved ended' =>
    rw [ended] at chunked
    cases chunked
    rfl

end

end NgxRtmp.Mp4

import NgxRtmp.Mp4Steps

namespace NgxRtmp.Mp4

open RunLength List

structure Fresh (cr : Cursor) : Prop where
  chunkPos : cr.chunkPos = 0
  sizePos : cr.sizePos = 0
  delay : cr.delay = 0 ∧ cr.delayPos = 0 ∧ cr.delayCount = 0

structure Landed (t : Track) (b : Tables) (cr landed : Cursor) : Prop where
  time : landed.pos = cr.pos ∧ landed.timePos = cr.timePos ∧ landed.timeCount = cr.timeCount ∧ landed.timestamp = cr.timestamp
  key : landed.keyPos = cr.keyPos ∧ landed.key = cr.key
  chunk : ChunkAt b cr.pos landed
  size : SizeAt b cr.pos landed
  offset : begins b cr.pos landed landed.offset
  delay : DelayAt id t cr.pos landed

-- The delays of the samples up to `k` are told apart by their counts alone.
def Track.Unbroken (t : Track) (k : Nat) : Prop :=
  ∀ delays, t.delays = some delays → Mp4.Unbroken ((delayRuns delays).map Prod.fst) k

theorem DelayAt.walks (landed : DelayAt id t k cr) (walks : DelayAt walked t k cr') :
    (cr'.delayPos = cr.delayPos ∧ cr'.delayCount = cr.delayCount) ↔ t.Unbroken k := by
  unfold DelayAt at landed walks
  unfold Track.Unbroken
  cases table : t.delays with
  | none =>
    rw [table] at landed walks
    simp [landed.2,walks.2]
  | some delays =>
    rw [table] at landed walks
    have place : Sits ((delayRuns delays).map Prod.fst) k cr.delayPos cr.delayCount := landed.1
    simp only [Option.some.injEq,forall_eq']
    rw [← walked_sits place]
    constructor
    · rintro ⟨samePlace,sameCount⟩
      rw [← samePlace,← sameCount]
      exact walks.1
    · intro sits
      exact sits_unique walks.1 sits

theorem DelayAt.walked (landed : DelayAt id t k cr) (unbroken : t.Unbroken k) : DelayAt Mp4.walked t k cr := by
  unfold DelayAt at landed ⊢
  cases table : t.delays with
  | none =>
    rw [table] at landed
    exact landed
  | some delays =>
    rw [table] at landed
    exact ⟨(walked_sits landed.1).mpr (unbroken delays table),landed.2⟩

theorem Landed.placed (landing : Landed t b cr landed) (time : TimeAt b cr.pos cr) (key : KeyAt t cr.pos cr) :
    Placed t b cr.pos landed := by
  obtain ⟨⟨pos,timePos,timeCount,stamp⟩,⟨keyPos,flag⟩,chunk,size,offset,_⟩ := landing
  refine ⟨?_,?_,chunk,size,offset⟩
  · unfold TimeAt at time ⊢
    rw [pos,timePos,timeCount,stamp]
    exact time
  · unfold KeyAt at key ⊢
    rw [keyPos,flag]
    exact key

theorem Placed.at (place : Placed t b k cr) (delay : DelayAt id t k cr) (unbroken : t.Unbroken k) : At t b k cr :=
  ⟨place.time,place.key,place.chunk,place.size,place.offset,delay.walked unbroken⟩

theorem Landed.at (landing : Landed t b cr landed) (time : TimeAt b cr.pos cr) (key : KeyAt t cr.pos cr) (unbroken : t.Unbroken cr.pos) :
    At t b cr.pos landed :=
  (landing.placed time key).at landing.delay unbroken

theorem nextTimes_frame : ∀ cr, ∃ lastTimestamp timestamp notFirst timePos timeCount pos, cr.pos ≤ pos ∧
    nextTimes t d cr = {cr with lastTimestamp:=lastTimestamp,timestamp:=timestamp,notFirst:=notFirst,timePos:=timePos
                                timeCount:=timeCount,pos:=pos} := by
  induction d with
  | zero => intro cr; exact ⟨_,_,_,_,_,_,le_rfl,rfl⟩
  | succ d ih =>
    intro cr
    obtain ⟨_,_,_,_,_,_,first,once⟩ := nextTime_frame
    obtain ⟨_,_,_,_,_,_,rest,more⟩ := ih (nextTime t cr).2
    rw [nextTimes,more,once]
    rw [once] at rest
    exact ⟨_,_,_,_,_,_,le_trans first rest,rfl⟩

theorem seekChunkLoop_stops (rest : List ChunkEntry) (ce : ChunkEntry) (chunkPos pos : Nat)
    (increasing : (ce::rest).Pairwise fun e e' => e.firstChunk.toNat < e'.firstChunk.toNat)
    (small : weight (chunkRuns total (ce::rest)) < 2^32) (le : pos ≤ target) : ∃ i found, (ce::rest)[i]? = some found ∧
      seekChunkLoop target ce rest chunkPos pos = (found,chunkPos+i,pos+weight ((chunkRuns total (ce::rest)).take i)) ∧
      pos+weight ((chunkRuns total (ce::rest)).take i) ≤ target ∧
      (i < rest.length → target < pos+weight ((chunkRuns total (ce::rest)).take (i+1))) := by
  induction rest generalizing ce chunkPos pos with
  | nil => exact ⟨0,ce,rfl,rfl,le,fun none => absurd none (Nat.not_lt_zero _)⟩
  | cons nce rest ih =>
    obtain ⟨before,later⟩ := pairwise_cons.mp increasing
    have less := before nce mem_cons_self
    rw [chunkRuns,weight_cons] at small
    have product : ((nce.firstChunk-ce.firstChunk)*ce.samplesPerChunk).toNat =
        (nce.firstChunk.toNat-ce.firstChunk.toNat)*ce.samplesPerChunk.toNat := by
      rw [UInt32.toNat_mul,UInt32.toNat_sub_of_le _ _ (UInt32.le_iff_toNat_le.mpr (le_of_lt less))]
      exact Nat.mod_eq_of_lt (lt_of_le_of_lt (Nat.le_add_right _ _) small)
    simp only [seekChunkLoop,product]
    by_cases here : pos+(nce.firstChunk.toNat-ce.firstChunk.toNat)*ce.samplesPerChunk.toNat > target
    · rw [if_pos here]
      exact ⟨0,ce,rfl,rfl,le,fun _ => by simpa [chunkRuns,weight] using here⟩
    · rw [if_neg here]
      obtain ⟨i,found,entry,stop,below,above⟩ := ih nce (chunkPos+1) _ later
        (lt_of_le_of_lt (Nat.le_add_left _ _) small) (Nat.not_lt.mp here)
      have first : weight ((chunkRuns total (ce::nce::rest)).take (i+1)) =
          (nce.firstChunk.toNat-ce.firstChunk.toNat)*ce.samplesPerChunk.toNat+weight ((chunkRuns total (nce::rest)).take i) := by
        rw [chunkRuns,take_succ_cons,weight_cons]
      refine ⟨i+1,found,entry,?_,by rw [first]; omega,?_⟩
      · rw [stop,first,add_assoc chunkPos,add_comm 1,add_assoc pos]
      · intro more
        have bound := above (by simpa using more)
        rw [chunkRuns,take_succ_cons,weight_cons]
        simp only
        omega

theorem sizes_before (sizes : List Nat) (le : c ≤ k) (bound : k ≤ sizes.length) :
    ((List.range c).map fun i => sizes[k-(i+1)]?.getD 0).sum = ((sizes.drop (k-c)).take c).sum := by
  induction c with
  | zero => rfl
  | succ c ih =>
    have inside : k-(c+1) < sizes.length := by omega
    have following : k-(c+1)+1 = k-c := by omega
    rw [range_succ,map_append,sum_append,ih (by omega),drop_eq_getElem_cons inside,
      following,take_succ_cons,sum_cons,add_comm]
    simp [inside]

theorem sum_offset {sizes : List Nat} (base : Nat) : sizes.foldl (fun sum size => sum+UInt64.ofNat size) (UInt64.ofNat base) =
    UInt64.ofNat (base+sizes.sum) := by
  induction sizes generalizing base with
  | nil => rfl
  | cons size sizes ih => rw [foldl_cons,← UInt64.ofNat_add,ih,sum_cons,add_assoc]

theorem seekDelayLoop_stops (delays : List DelayEntry) (pos : UInt32) (cr : Cursor) (le : pos.toNat ≤ cr.pos)
    (less : cr.pos < pos.toNat+((delayRuns delays).map Prod.fst).sum) (small : pos.toNat+((delayRuns delays).map Prod.fst).sum < 2^32) :
    ∃ j c delay, Sits ((delayRuns delays).map Prod.fst) (cr.pos-pos.toNat) j c ∧ (delayRuns delays)[j]?.map Prod.snd = some delay ∧
      seekDelayLoop delays pos cr = {cr with delay:=delay,delayPos:=cr.delayPos+j,delayCount:=c} := by
  induction delays generalizing pos cr with
  | nil =>
    simp only [delayRuns,map_nil,sum_nil] at less
    omega
  | cons de delays ih =>
    simp only [delayRuns,map_cons,sum_cons] at less small
    have reached : (pos+de.sampleCount).toNat = pos.toNat+de.sampleCount.toNat := by
      rw [UInt32.toNat_add]
      exact Nat.mod_eq_of_lt (by omega)
    simp only [seekDelayLoop,reached]
    by_cases here : pos.toNat+de.sampleCount.toNat > cr.pos
    · rw [if_pos here]
      exact ⟨0,cr.pos-pos.toNat,de.sampleOffset,⟨rfl,by simp only; omega⟩,rfl,rfl⟩
    · rw [if_neg here]
      obtain ⟨j,c,delay,sits,value,stop⟩ := ih (pos+de.sampleCount) {cr with delayPos:=cr.delayPos+1}
        (by rw [reached]; exact Nat.not_lt.mp here) (by rw [reached]; unfold delayRuns; simp only; omega)
        (by rw [reached]; unfold delayRuns; omega)
      refine ⟨j+1,c,delay,⟨by simp only; omega,?_⟩,value,?_⟩
      · rw [reached] at sits
        rw [Nat.sub_sub]
        exact sits
      · rw [stop,add_assoc,add_comm 1]

section
variable {t : Track} {b : Tables} {n : Nat} (ok : Consistent t b n)
include ok

theorem seekChunk_goes (fresh : cr.chunkPos = 0) : ∃ i ce d s, b.chunks[i]? = some ce ∧ s < ce.samplesPerChunk.toNat ∧
    cr.pos = weight (b.runs.take i)+d*ce.samplesPerChunk.toNat+s ∧
    (i+1 < b.chunks.length → cr.pos < weight (b.runs.take (i+1))) ∧
    seekChunk t cr = updateOffset t {cr with chunk:=ce.firstChunk.toNat+d,chunkPos:=i,chunkCount:=s} := by
  have listed := ok.chunks
  have head := ok.firstChunk
  have increasing := ok.increasing
  have small : weight b.runs < 2^32 := by
    rw [← expand_sum,← Tables.perChunk,ok.chunkSamples]
    exact ok.count_small
  unfold Tables.runs at small ⊢
  cases entries : b.chunks with
  | nil => rw [entries] at head; cases head
  | cons first rest =>
    rw [entries] at listed increasing small
    obtain ⟨i,ce,entry,stop,below,above⟩ :=
      seekChunkLoop_stops rest first 0 0 increasing small (Nat.zero_le _)
    have positive := ok.chunkPositive ce (by rw [entries]; exact mem_of_getElem? entry)
    simp only [zero_add] at stop below above
    obtain ⟨start,at_start⟩ : ∃ start, weight ((chunkRuns b.offsets.length (first::rest)).take i) = start := ⟨_,rfl⟩
    rw [at_start] at stop below
    have split := Nat.div_add_mod' (cr.pos-start) ce.samplesPerChunk.toNat
    refine ⟨i,ce,(cr.pos-start)/ce.samplesPerChunk.toNat,(cr.pos-start)%ce.samplesPerChunk.toNat,entry,Nat.mod_lt _ positive,
      by rw [at_start]; omega,fun more => above (by simpa using more),?_⟩
    simp only [seekChunk,listed,fresh,stop]
    rw [if_neg (fun none => by rw [none] at positive; cases positive),Nat.mod_eq_sub_div_mul]

theorem run_at (entry : b.chunks[i]? = some ce) : ∃ count, b.runs[i]? = some (count,ce.samplesPerChunk.toNat) ∧
    (b.chunks.length ≤ i+1 → n = weight (b.runs.take i)+count*ce.samplesPerChunk.toNat) ∧
    (b.chunks.length ≤ i+1 → ce.firstChunk.toNat+count = b.offsets.length+1) ∧
    ce.firstChunk.toNat = 1+((b.runs.map Prod.fst).take i).sum := by
  have run : b.runs[i]? = _ := chunkRuns_get b.offsets.length entry
  have first := chunkRuns_first b.offsets.length ok.firstChunk ok.increasing entry
  refine ⟨_,run,?_,?_,first⟩
  · intro last
    have whole : b.runs.take (i+1) = b.runs := take_of_length_le (by rw [Tables.runs,chunkRuns_length]; exact last)
    rw [← ok.chunkSamples,Tables.perChunk,expand_sum,← weight_take_succ run,whole]
  · intro last
    rw [List.getElem?_eq_none last]
    have le := ok.lastChunk ce (mem_of_getElem? entry)
    simp only
    omega

theorem seekChunk_lands (fresh : cr.chunkPos = 0) (inside : cr.pos < n) :
    ∃ chunk chunkPos chunkCount base, b.offsets[chunk-1]? = some base ∧
      seekChunk t cr = (true,{cr with chunk:=chunk,chunkPos:=chunkPos,chunkCount:=chunkCount,offset:=UInt64.ofNat base,size:=0}) ∧
      ChunkAt b cr.pos {cr with chunk:=chunk,chunkPos:=chunkPos,chunkCount:=chunkCount} := by
  obtain ⟨i,ce,d,s,entry,less,place,bound,goes⟩ := seekChunk_goes ok fresh
  obtain ⟨count,run,all,_,first⟩ := run_at ok entry
  -- the chunk is one of the run's, so it is a chunk of the track
  have within : d < count := by
    have before : d*ce.samplesPerChunk.toNat < count*ce.samplesPerChunk.toNat := by
      by_cases last : b.chunks.length ≤ i+1
      · have total := all last
        omega
      · have more := bound (Nat.not_le.mp last)
        rw [weight_take_succ run] at more
        omega
    exact Nat.lt_of_mul_lt_mul_right before
  have sits : Sits (b.runs.map Prod.fst) (ce.firstChunk.toNat+d-1) i d :=
    sits_iff.mpr ⟨count,by simp [run],within,by omega⟩
  have samples : Sits b.perChunk cr.pos (ce.firstChunk.toNat+d-1) s := by
    refine sits_iff.mpr ⟨ce.samplesPerChunk.toNat,?_,less,?_⟩
    · rw [Tables.perChunk,expand_at sits,run]
      rfl
    · rw [Tables.perChunk,take_expand_sum sits run,place]
  have listed := (sits_place samples).2
  rw [ok.perChunk_length] at listed
  have base : b.offsets[ce.firstChunk.toNat+d-1]? = some b.offsets[ce.firstChunk.toNat+d-1] := List.getElem?_eq_getElem listed
  refine ⟨_,i,s,_,base,?_,by simp only; omega,samples,d,sits⟩
  rw [goes,updateOffset_finds ok (by simp only; omega) base]

theorem seekChunk_fails (fresh : cr.chunkPos = 0) (beyond : n ≤ cr.pos) : (seekChunk t cr).1 = false := by
  obtain ⟨i,ce,d,s,entry,less,place,bound,goes⟩ := seekChunk_goes ok fresh
  obtain ⟨count,run,all,chunks,first⟩ := run_at ok entry
  have last : b.chunks.length ≤ i+1 := by
    refine Nat.not_lt.mp fun more => ?_
    have within := bound more
    have total := weight_take_le b.runs (i+1)
    rw [← expand_sum b.runs,← Tables.perChunk,ok.chunkSamples] at total
    omega
  have total := all last
  have reached := chunks last
  have past : count ≤ d := by
    refine Nat.not_lt.mp fun short => ?_
    have product : (d+1)*ce.samplesPerChunk.toNat ≤ count*ce.samplesPerChunk.toNat := Nat.mul_le_mul_right _ (by omega)
    rw [add_mul,one_mul] at product
    omega
  rw [goes]
  exact updateOffset_fails ok (by simp only; omega)

theorem seekSize_lands (fresh : cr.sizePos = 0) (inside : cr.pos < n) (within : cr.chunkCount ≤ cr.pos)
    (base : b.offsets[cr.chunk-1]? = some start) (offset : cr.offset = UInt64.ofNat start) :
    ∃ offset size sizePos, seekSize t cr = (true,{cr with offset:=offset,size:=size,sizePos:=sizePos}) ∧
      SizeAt b cr.pos {cr with size:=size,sizePos:=sizePos} ∧ begins b cr.pos cr offset := by
  have value := sampleSize_at ok inside
  unfold seekSize SizeAt begins
  rw [if_neg (Nat.not_lt.mpr within)]
  simp only [ok.sizes]
  by_cases same : b.sizes.sampleSize ≠ 0
  · rw [if_pos same] at value ⊢
    refine ⟨_,_,_,rfl,⟨value,by rw [if_pos same]; exact fresh⟩,start,base,?_⟩
    rw [offset,← UInt64.ofNat_add,Tables.sampleSizes,if_pos same,drop_replicate,take_replicate,sum_replicate_nat,
      ok.sizeSamples,min_eq_left (by omega),mul_comm]
  · have entries := ok.sizeEntries (Decidable.not_not.mp same)
    rw [if_neg same] at value ⊢
    rw [if_neg (by rw [ok.sizeSamples]; omega)]
    refine ⟨_,_,_,rfl,⟨value,by rw [if_neg same]⟩,start,base,?_⟩
    have listed := sizes_before (b.sizes.entries.map UInt32.toNat) within (by rw [length_map]; omega)
    rw [Tables.sampleSizes,if_neg same,← listed,← sum_offset,offset]
    simp [← Option.getD_map UInt32.toNat]

theorem seekDelay_lands (fresh : cr.delay = 0 ∧ cr.delayPos = 0 ∧ cr.delayCount = 0) (inside : cr.pos < n) :
    ∃ delay delayPos delayCount, seekDelay t cr = (true,{cr with delay:=delay,delayPos:=delayPos,delayCount:=delayCount}) ∧
      DelayAt id t cr.pos {cr with delay:=delay,delayPos:=delayPos,delayCount:=delayCount} := by
  unfold seekDelay DelayAt
  cases table : t.delays with
  | none => exact ⟨_,_,_,rfl,fresh⟩
  | some delays =>
    have total := ok.delays delays table
    have small := ok.count_small
    obtain ⟨j,c,delay,sits,value,stop⟩ := seekDelayLoop_stops delays 0 cr (Nat.zero_le _)
      (by rw [total,UInt32.toNat_zero]; omega) (by rw [total,UInt32.toNat_zero]; omega)
    rw [fresh.2.1,zero_add] at stop
    exact ⟨_,_,_,by simp only [stop],sits,value⟩

theorem seek_lands (fresh : Fresh cr) (inside : cr.pos < n) :
    ∃ landed, andThen (andThen (seekChunk t cr) (seekSize t)) (seekDelay t) = (true,landed) ∧ Landed t b cr landed := by
  obtain ⟨chunk,chunkPos,chunkCount,start,base,chunked,at_chunk⟩ := seekChunk_lands ok fresh.chunkPos inside
  obtain ⟨offset,size,sizePos,sized,at_size,begin⟩ := seekSize_lands ok (show ({cr with
    chunk:=chunk,chunkPos:=chunkPos,chunkCount:=chunkCount,offset:=UInt64.ofNat start,size:=0} : Cursor).sizePos = 0 from fresh.sizePos)
    inside (sits_place at_chunk.2.1).1 base rfl
  obtain ⟨delay,delayPos,delayCount,delayed,at_delay⟩ := seekDelay_lands ok (show ({cr with
    chunk:=chunk,chunkPos:=chunkPos,chunkCount:=chunkCount,offset:=offset,size:=size,sizePos:=sizePos} : Cursor).delay = 0 ∧ _ ∧ _
    from fresh.delay) inside
  simp only [chunked,sized,delayed,andThen]
  exact ⟨_,rfl,⟨rfl,rfl,rfl,rfl⟩,⟨rfl,rfl⟩,at_chunk,at_size,begin,at_delay⟩

theorem seekTrack_lands (keyed : andThen (seekTime t (fromRtmpTimestamp t timestamp) {}) (seekKey t) = (true,cr)) (fresh : Fresh cr)
    (inside : cr.pos < n) : ∃ landed, seekTrack t timestamp = (true,landed) ∧ Landed t b cr landed := by
  obtain ⟨landed,moved,time,key,chunk,size,offset,delay⟩ := seek_lands ok fresh inside
  refine ⟨{landed with valid:=true},?_,time,key,chunk,size,offset,delay⟩
  have whole : andThen (andThen (andThen (true,cr) (seekChunk t)) (seekSize t)) (seekDelay t) = (true,landed) := moved
  simp only [seekTrack,keyed,whole,if_true]

end

end NgxRtmp.Mp4

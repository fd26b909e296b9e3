import NgxRtmp.Mp4
import NgxRtmp.Lib.RunLength

namespace NgxRtmp.Mp4

open RunLength List

structure Tables where
  times : List TimeEntry
  chunks : List ChunkEntry
  sizes : Sizes
  offsets : List Nat

def timeRuns (times : List TimeEntry) : List (Nat × Nat) := times.map fun e => (e.sampleCount.toNat,e.sampleDelta.toNat)
def delayRuns (delays : List DelayEntry) : List (Nat × UInt32) := delays.map fun e => (e.sampleCount.toNat,e.sampleOffset)

-- For each entry its chunks and the samples in each; the last reaches to the last chunk.
def chunkRuns (total : Nat) : List ChunkEntry → List (Nat × Nat)
  | [] => []
  | [e] => [(total+1-e.firstChunk.toNat,e.samplesPerChunk.toNat)]
  | e::e'::rest => (e'.firstChunk.toNat-e.firstChunk.toNat,e.samplesPerChunk.toNat)::chunkRuns total (e'::rest)

def Tables.runs (b : Tables) : List (Nat × Nat) := chunkRuns b.offsets.length b.chunks

def Tables.dts (b : Tables) (k : Nat) : Nat := ((expand (timeRuns b.times)).take k).sum

def Tables.perChunk (b : Tables) : List Nat := expand b.runs

def Tables.sampleSizes (b : Tables) : List Nat :=
  if b.sizes.sampleSize ≠ 0 then List.replicate b.sizes.sampleCount.toNat b.sizes.sampleSize.toNat
  else b.sizes.entries.map UInt32.toNat

def Tables.Stored (b : Tables) (k offset : Nat) : Prop :=
  ∃ c s base, Sits b.perChunk k c s ∧ b.offsets[c]? = some base ∧ offset = base+((b.sampleSizes.drop (k-s)).take s).sum

structure Consistent (t : Track) (b : Tables) (n : Nat) : Prop where
  times : t.times = some b.times
  chunks : t.chunks = some b.chunks
  sizes : t.sizes = some b.sizes
  offsets : (∃ offsets, t.offsets = some offsets ∧ b.offsets = offsets.map UInt32.toNat) ∨
    (t.offsets = none ∧ ∃ offsets, t.offsets64 = some offsets ∧ b.offsets = offsets.map UInt64.toNat)
  timePositive : ∀ e ∈ b.times, 0 < e.sampleCount.toNat ∧ 0 < e.sampleDelta.toNat
  timeSamples : ((timeRuns b.times).map Prod.fst).sum = n
  firstChunk : b.chunks.head?.map (·.firstChunk.toNat) = some 1
  increasing : b.chunks.Pairwise fun e e' => e.firstChunk.toNat < e'.firstChunk.toNat
  lastChunk : ∀ e ∈ b.chunks, e.firstChunk.toNat ≤ b.offsets.length
  chunkPositive : ∀ e ∈ b.chunks, 0 < e.samplesPerChunk.toNat
  chunkSamples : b.perChunk.sum = n
  sizeSamples : b.sizes.sampleCount.toNat = n
  sizeEntries : b.sizes.sampleSize = 0 → b.sizes.entries.length = n
  keys : ∀ keys, t.keys = some keys → keys.head? = some 1 ∧ keys.Pairwise (· < ·)
  delays : ∀ delays, t.delays = some delays → ((delayRuns delays).map Prod.fst).sum = n

-- next_delay moves by one entry at a time, so an empty entry is taken for one sample.
def walked : List Nat → List Nat
  | [] => []
  | 0::rest => 0::walked rest
  | (n+1)::rest => (n+1)::rest.map (max 1 ·)

def Unbroken (counts : List Nat) (k : Nat) : Prop := ∀ i, counts[i]? = some 0 → 0 < (counts.take i).sum → k < (counts.take i).sum

theorem walked_at (entry : (walked counts)[j]? = some m) (some_samples : 0 < m) :
    (∃ n, counts[j]? = some n ∧ m = max 1 n) ∧ ∀ m', (walked counts)[j+1]? = some m' → 0 < m' := by
  have filled : ∀ {rest : List Nat} {j m : Nat}, (rest.map (max 1 ·))[j]? = some m → ∃ n, rest[j]? = some n ∧ m = max 1 n := by
    intro rest j m entry
    rw [List.getElem?_map] at entry
    obtain ⟨n,found,rfl⟩ := Option.map_eq_some_iff.mp entry
    exact ⟨n,found,rfl⟩
  have positive : ∀ {rest : List Nat} {j m : Nat}, (rest.map (max 1 ·))[j]? = some m → 0 < m := by
    intro rest j m entry
    obtain ⟨n,_,rfl⟩ := filled entry
    omega
  induction counts generalizing j with
  | nil => simp [walked] at entry
  | cons n counts ih =>
    cases n with
    | zero =>
      cases j with
      | zero =>
        cases entry
        cases some_samples
      | succ j => exact ih entry
    | succ n =>
      cases j with
      | zero =>
        cases entry
        exact ⟨⟨n+1,rfl,by omega⟩,fun m' following => positive following⟩
      | succ j => exact ⟨filled entry,fun m' following => positive following⟩

theorem filled_take_sum (counts : List Nat) (j : Nat) : (counts.take j).sum ≤ ((counts.map (max 1 ·)).take j).sum := by
  induction counts generalizing j with
  | nil => simp
  | cons n counts ih =>
    cases j with
    | zero => exact le_rfl
    | succ j =>
      have rest := ih j
      simp only [map_cons,take_succ_cons,sum_cons]
      omega

theorem walked_sum (counts : List Nat) : counts.sum ≤ (walked counts).sum := by
  induction counts with
  | nil => exact le_rfl
  | cons n counts ih =>
    cases n with
    | zero => simpa [walked] using ih
    | succ n =>
      have rest := filled_take_sum counts counts.length
      rw [take_length,take_of_length_le (by simp)] at rest
      simp only [walked,sum_cons]
      omega

theorem filled_sits (sits : Sits counts k j c) :
    Sits (counts.map (max 1 ·)) k j c ↔ ∀ i, counts[i]? = some 0 → k < (counts.take i).sum := by
  induction counts generalizing k j with
  | nil => cases sits
  | cons n counts ih =>
    cases j with
    | zero =>
      obtain ⟨rfl,less⟩ := sits
      refine ⟨fun _ i empty => ?_,fun _ => ⟨rfl,by simp only; omega⟩⟩
      cases i with
      | zero =>
        cases empty
        cases less
      | succ i =>
        rw [take_succ_cons,sum_cons]
        omega
    | succ j =>
      obtain ⟨le,rest⟩ := sits
      cases n with
      | zero =>
        constructor
        · rintro ⟨some_sample,other⟩
          -- an empty entry before it would push the sample on by one
          obtain ⟨_,_,_,sum⟩ := sits_iff.mp rest
          obtain ⟨_,_,_,sum'⟩ := sits_iff.mp other
          have more := filled_take_sum counts j
          simp only at some_sample sum'
          omega
        · intro unbroken
          have none := unbroken 0 rfl
          simp at none
      | succ n =>
        have same : max 1 (n+1) = n+1 := by omega
        rw [map_cons,same]
        simp only [Sits,le,true_and,ih rest]
        constructor
        · intro unbroken i empty
          cases i with
          | zero => cases empty
          | succ i =>
            have less := unbroken i empty
            rw [take_succ_cons,sum_cons]
            omega
        · intro unbroken i empty
          have less := unbroken (i+1) empty
          rw [take_succ_cons,sum_cons] at less
          omega

theorem walked_sits (sits : Sits counts k j c) : Sits (walked counts) k j c ↔ Unbroken counts k := by
  induction counts generalizing k j with
  | nil => cases sits
  | cons n counts ih =>
    cases n with
    | zero =>
      cases j with
      | zero => cases sits.2
      | succ j =>
        have rest : Sits counts k j c := sits.2
        simp only [walked,Sits,Nat.sub_zero,Nat.zero_le,true_and]
        rw [ih rest]
        constructor
        · intro unbroken i empty before
          cases i with
          | zero => simp at before
          | succ i =>
            rw [take_succ_cons,sum_cons,zero_add] at before ⊢
            exact unbroken i empty before
        · intro unbroken i empty before
          have less := unbroken (i+1) empty
          rw [take_succ_cons,sum_cons,zero_add] at less
          exact less before
    | succ n =>
      cases j with
      | zero =>
        refine ⟨fun _ i empty _ => ?_,fun _ => sits⟩
        have less := sits.2
        cases i with
        | zero => cases empty
        | succ i =>
          rw [take_succ_cons,sum_cons]
          omega
      | succ j =>
        obtain ⟨le,rest⟩ := sits
        simp only [walked,Sits,le,true_and]
        rw [filled_sits rest]
        constructor
        · intro unbroken i empty _
          cases i with
          | zero => cases empty
          | succ i =>
            have less := unbroken i empty
            rw [take_succ_cons,sum_cons]
            omega
        · intro unbroken i empty
          have less := unbroken (i+1) empty
          rw [take_succ_cons,sum_cons] at less
          omega

theorem chunkRuns_length : ∀ chunks, (chunkRuns total chunks).length = chunks.length
  | [] => rfl
  | [_] => rfl
  | _::e'::rest => by rw [chunkRuns,length_cons,length_cons,chunkRuns_length (e'::rest)]

theorem chunkRuns_get (total : Nat) (entry : chunks[i]? = some e) :
    (chunkRuns total chunks)[i]? =
      some ((match chunks[i+1]? with | some e' => e'.firstChunk.toNat | none => total+1)-e.firstChunk.toNat,e.samplesPerChunk.toNat) := by
  induction chunks generalizing i with
  | nil => simp at entry
  | cons first chunks ih =>
    cases chunks with
    | nil =>
      cases i with
      | zero =>
        cases entry
        rfl
      | succ i => simp at entry
    | cons second rest =>
      cases i with
      | zero =>
        cases entry
        rfl
      | succ i =>
        rw [chunkRuns]
        exact ih entry

theorem chunkRuns_first (total : Nat) {chunks : List ChunkEntry} (head : chunks.head?.map (·.firstChunk.toNat) = some start)
    (increasing : chunks.Pairwise fun e e' => e.firstChunk.toNat < e'.firstChunk.toNat) (entry : chunks[i]? = some e) :
    e.firstChunk.toNat = start+(((chunkRuns total chunks).map Prod.fst).take i).sum := by
  induction chunks generalizing i start with
  | nil => simp at head
  | cons first chunks ih =>
    obtain rfl : first.firstChunk.toNat = start := by simpa using head
    cases i with
    | zero =>
      cases entry
      simp
    | succ i =>
      cases chunks with
      | nil => simp at entry
      | cons second rest =>
        obtain ⟨before,later⟩ := pairwise_cons.mp increasing
        have less := before second mem_cons_self
        have rest := ih rfl later entry
        rw [chunkRuns,map_cons,take_succ_cons,sum_cons]
        simp only at rest ⊢
        omega

theorem chunkRuns_total {chunks : List ChunkEntry} (head : chunks.head?.map (·.firstChunk.toNat) = some start)
    (increasing : chunks.Pairwise fun e e' => e.firstChunk.toNat < e'.firstChunk.toNat)
    (last : ∀ e ∈ chunks, e.firstChunk.toNat ≤ total) : start+((chunkRuns total chunks).map Prod.fst).sum = total+1 := by
  induction chunks generalizing start with
  | nil => simp at head
  | cons first chunks ih =>
    obtain rfl : first.firstChunk.toNat = start := by simpa using head
    have here := last first mem_cons_self
    cases chunks with
    | nil =>
      simp only [chunkRuns,map_cons,map_nil,sum_cons,sum_nil]
      omega
    | cons second rest =>
      obtain ⟨before,later⟩ := pairwise_cons.mp increasing
      have less := before second mem_cons_self
      have rest := ih rfl later (fun e inside => last e (mem_cons_of_mem _ inside))
      rw [chunkRuns,map_cons,sum_cons]
      simp only at rest ⊢
      omega

theorem chunkRuns_positive {chunks : List ChunkEntry} (increasing : chunks.Pairwise fun e e' => e.firstChunk.toNat < e'.firstChunk.toNat)
    (last : ∀ e ∈ chunks, e.firstChunk.toNat ≤ total) (positive : ∀ e ∈ chunks, 0 < e.samplesPerChunk.toNat)
    (inside : run ∈ chunkRuns total chunks) : 0 < run.1 ∧ 0 < run.2 := by
  induction chunks with
  | nil => cases inside
  | cons first chunks ih =>
    have here := last first mem_cons_self
    have some_samples := positive first mem_cons_self
    cases chunks with
    | nil =>
      obtain rfl := mem_singleton.mp inside
      exact ⟨by change 0 < total+1-first.firstChunk.toNat; omega,some_samples⟩
    | cons second rest =>
      obtain ⟨before,later⟩ := pairwise_cons.mp increasing
      have less := before second mem_cons_self
      rcases mem_cons.mp inside with rfl | inside
      · exact ⟨by change 0 < second.firstChunk.toNat-first.firstChunk.toNat; omega,some_samples⟩
      · exact ih later (fun e inside => last e (mem_cons_of_mem _ inside))
          (fun e inside => positive e (mem_cons_of_mem _ inside)) inside

section
variable {t : Track} {b : Tables} {n : Nat}

section

variable (ok : Consistent t b n)
include ok

theorem Consistent.runs_total : (b.runs.map Prod.fst).sum = b.offsets.length := by
  have total := chunkRuns_total ok.firstChunk ok.increasing ok.lastChunk
  unfold Tables.runs
  omega

theorem Consistent.runs_positive : ∀ m ∈ b.runs.map Prod.fst, 0 < m := by
  intro m inside
  obtain ⟨run,own,rfl⟩ := mem_map.mp inside
  exact (chunkRuns_positive ok.increasing ok.lastChunk ok.chunkPositive own).1

theorem Consistent.perChunk_positive : ∀ m ∈ b.perChunk, 0 < m := by
  intro m inside
  obtain ⟨run,own,here⟩ := mem_flatMap.mp inside
  rw [(mem_replicate.mp here).2]
  exact (chunkRuns_positive ok.increasing ok.lastChunk ok.chunkPositive own).2

theorem Consistent.perChunk_length : b.perChunk.length = b.offsets.length := by
  rw [Tables.perChunk,expand_length,ok.runs_total]

theorem Consistent.some_samples : 0 < n := by
  have first := ok.firstChunk
  cases entries : b.chunks with
  | nil => rw [entries] at first; cases first
  | cons e rest =>
    rw [entries] at first
    have one : e.firstChunk.toNat = 1 := Option.some.inj first
    have inside := ok.lastChunk e (by rw [entries]; exact mem_cons_self)
    rw [one,← ok.perChunk_length] at inside
    rw [← ok.chunkSamples]
    cases counts : b.perChunk with
    | nil => rw [counts] at inside; cases inside
    | cons m counts' =>
      have positive := ok.perChunk_positive m (by rw [counts]; exact mem_cons_self)
      rw [sum_cons]
      exact Nat.add_pos_left positive _

theorem Consistent.count_small : n < 2^32 := by
  rw [← ok.sizeSamples]
  exact b.sizes.sampleCount.toNat_lt

theorem Consistent.times_positive : ∀ m ∈ (timeRuns b.times).map Prod.fst, 0 < m := by
  intro m inside
  obtain ⟨run,own,rfl⟩ := mem_map.mp inside
  obtain ⟨e,entry,rfl⟩ := mem_map.mp own
  exact (ok.timePositive e entry).1

end

end

end NgxRtmp.Mp4

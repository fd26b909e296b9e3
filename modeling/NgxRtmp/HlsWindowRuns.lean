import NgxRtmp.HlsWindow

namespace NgxRtmp.HlsWindow
open List

theorem mod_apart {a : Nat} (less : i < n) (near : n < i+m) : (a+i) % m ≠ (a+n) % m := by
  intro same
  have zero := Nat.sub_mod_eq_zero_of_mod_eq same.symm
  rw [Nat.add_sub_add_left,Nat.mod_eq_of_lt (by omega)] at zero
  omega

theorem offset_toNat (small : frag.toNat+n < 2^64) : (frag+UInt64.ofNat n).toNat = frag.toNat+n := by
  rw [UInt64.toNat_add,UInt64.toNat_ofNat']
  omega

-- Against the fragments closed so far in the publish that began at `start`.
structure Window (conf : Conf) (start : UInt64) (closed : List Frag) (ctx : Ctx) : Prop where
  count : ctx.nfrags = min closed.length conf.winfrags
  next : ctx.frag.toNat+ctx.nfrags = start.toNat+closed.length
  bound : start.toNat+closed.length < 2^64
  listed : entries conf ctx = closed.drop (closed.length-ctx.nfrags)
  ids : ∀ j f, closed[j]? = some f → f.id.toNat = start.toNat+j
  current : ctx.opened = true → (getFrag conf ctx ctx.nfrags).id.toNat = start.toNat+closed.length

theorem slot_apart (window : Window conf start closed ctx) (listed : i < ctx.nfrags) : slot conf ctx i ≠ slot conf ctx ctx.nfrags := by
  have count := window.count
  have next := window.next
  have bound := window.bound
  unfold slot
  rw [offset_toNat (by omega),offset_toNat (by omega)]
  exact mod_apart listed (by omega)

theorem entries_setFrag {after : Ctx} (window : Window conf start closed ctx) (same : after = setFrag conf ctx ctx.nfrags f) :
    entries conf after = entries conf ctx := by
  subst same
  refine map_congr_left ?_
  intro i inside
  exact Function.update_of_ne (slot_apart window (mem_range.mp inside)) _ _

theorem getFrag_setFrag (conf : Conf) (ctx : Ctx) (n : Nat) (f : Frag) : getFrag conf (setFrag conf ctx n f) n = f :=
  Function.update_self _ _ _

theorem measure_keeps (window : Window conf start closed ctx) : Window conf start closed (measure conf ts ctx) := by
  unfold measure
  split
  · rename_i opened
    refine ⟨window.count,window.next,window.bound,?_,window.ids,?_⟩
    · rw [entries_setFrag window rfl]
      exact window.listed
    · intro _
      have id := window.current opened.1
      change (getFrag conf (setFrag conf ctx ctx.nfrags _) ctx.nfrags).id.toNat = _
      rw [getFrag_setFrag]
      exact id
  · exact window

theorem openFragment_keeps (sequential : conf.naming = .sequential) (whole : conf.granularity = 0)
    (window : Window conf start closed ctx) : Window conf start closed (openFragment conf ts system discont made ctx) := by
  have next := window.next
  have bound := window.bound
  unfold openFragment
  split
  · exact window
  · split
    · refine ⟨window.count,window.next,window.bound,?_,window.ids,?_⟩
      · exact (entries_setFrag window rfl).trans window.listed
      · intro _
        change (getFrag conf (setFrag conf {ctx with opened:=true,fragTs:=ts} ctx.nfrags _) ctx.nfrags).id.toNat = _
        rw [getFrag_setFrag]
        simp only [granulate,whole,getFragmentId,sequential,if_true]
        rw [offset_toNat (by omega),next]
    · exact window

theorem clock_keeps (window : Window conf start closed ctx) :
    Window conf start closed {ctx with fragTs:=fragTs,baseTimestamp:=base,isFirstPackge:=first} :=
  ⟨window.count,window.next,window.bound,window.listed,window.ids,window.current⟩

theorem entries_nextFrag : entries conf (nextFrag conf {ctx with opened:=false}) =
    (entries conf ctx ++ [getFrag conf ctx ctx.nfrags]).drop (if ctx.nfrags = conf.winfrags then 1 else 0) := by
  have whole : entries conf ctx ++ [getFrag conf ctx ctx.nfrags] = (List.range (ctx.nfrags+1)).map (getFrag conf ctx) := by
    simp [entries,range_succ]
  have shifted : ∀ i, getFrag conf {ctx with opened:=false,frag:=ctx.frag+1} i = getFrag conf ctx (i+1) := by
    intro i
    have sum : ctx.frag+1+UInt64.ofNat i = ctx.frag+UInt64.ofNat (i+1) := by
      rw [UInt64.ofNat_add,UInt64.add_assoc,UInt64.add_comm 1]
      rfl
    simp only [getFrag,slot,sum]
  rw [whole,nextFrag]
  split
  · change (List.range ctx.nfrags).map (getFrag conf {ctx with opened:=false,frag:=ctx.frag+1}) = _
    rw [range_succ_eq_map,map_cons,drop_one,tail_cons,map_map]
    exact map_congr_left (fun i _ => shifted i)
  · rfl

theorem nextFrag_keeps (window : Window conf start closed ctx) (opened : ctx.opened = true)
    (bound : start.toNat+(closed.length+1) < 2^64) :
    Window conf start (closed ++ [getFrag conf ctx ctx.nfrags]) (nextFrag conf {ctx with opened:=false}) := by
  have count := window.count
  have next := window.next
  have few : ctx.nfrags ≤ closed.length := by omega
  have counted : (nextFrag conf {ctx with opened:=false}).nfrags = min (closed.length+1) conf.winfrags ∧
      (nextFrag conf {ctx with opened:=false}).frag.toNat+(nextFrag conf {ctx with opened:=false}).nfrags =
        start.toNat+(closed.length+1) ∧ (nextFrag conf {ctx with opened:=false}).opened = false := by
    unfold nextFrag
    split
    · rename_i full
      have more : (ctx.frag+1).toNat = ctx.frag.toNat+1 := offset_toNat (n := 1) (by omega)
      refine ⟨?_,?_,rfl⟩
      · change ctx.nfrags = _
        simp only at full
        omega
      · change (ctx.frag+1).toNat+ctx.nfrags = _
        omega
    · rename_i room
      simp only at room
      refine ⟨?_,?_,rfl⟩
      · change ctx.nfrags+1 = _
        omega
      · change ctx.frag.toNat+(ctx.nfrags+1) = _
        omega
  obtain ⟨number,reached,shut⟩ := counted
  refine ⟨by simpa using number,by simpa using reached,by simpa using bound,?_,?_,?_⟩
  · rw [entries_nextFrag,window.listed,number,length_append,length_singleton]
    rw [← drop_append_of_le_length (by omega),drop_drop]
    congr 1
    split <;> omega
  · intro j f at_j
    by_cases last : j < closed.length
    · rw [getElem?_append_left last] at at_j
      exact window.ids j f at_j
    · have inside := (List.getElem?_eq_some_iff.mp at_j).1
      rw [length_append,length_singleton] at inside
      obtain rfl : j = closed.length := by omega
      rw [getElem?_concat_length] at at_j
      cases at_j
      exact window.current opened
  · intro again
    rw [shut] at again
    cases again

def Lists (conf : Conf) (start : UInt64) (closed : List Frag) (p : Playlist) : Prop :=
  p.sequence.toNat+min closed.length conf.winfrags = start.toNat+closed.length ∧
    p.entries = closed.drop (closed.length-min closed.length conf.winfrags)

theorem writePlaylist_lists (window : Window conf start closed ctx) : Lists conf start closed (writePlaylist conf ctx) := by
  have count := window.count
  have next := window.next
  exact ⟨by rw [← count]; exact next,by rw [← count]; exact window.listed⟩

theorem step_keeps (sequential : conf.naming = .sequential) (whole : conf.granularity = 0) (event : Event)
    (window : Window conf start closed ctx)
    (bound : start.toNat+(closed ++ (step conf ctx event).2.toList.map Closed.frag).length < 2^64) :
    Window conf start (closed ++ (step conf ctx event).2.toList.map Closed.frag) (step conf ctx event).1 ∧
    ∀ c p, (step conf ctx event).2 = some c → c.playlist = some p → Lists conf start (closed ++ [c.frag]) p := by
  cases event with
  | measure ts =>
    refine ⟨?_,by intro c p none; cases none⟩
    rw [show (step conf ctx (.measure ts)).2 = none from rfl,Option.toList_none,map_nil,append_nil]
    exact measure_keeps window
  | «open» ts system discont made =>
    refine ⟨?_,by intro c p none; cases none⟩
    rw [show (step conf ctx (.open ts system discont made)).2 = none from rfl,Option.toList_none,map_nil,append_nil]
    exact openFragment_keeps sequential whole window
  | clock fragTs base first =>
    refine ⟨?_,by intro c p none; cases none⟩
    rw [show (step conf ctx (.clock fragTs base first)).2 = none from rfl,Option.toList_none,map_nil,append_nil]
    exact clock_keeps window
  | close written =>
    cases opened : ctx.opened with
    | false =>
      have idle : step conf ctx (.close written) = (ctx,none) := by simp [step,closeFragment,opened]
      rw [idle]
      exact ⟨by simpa using window,by intro c p none; cases none⟩
    | true =>
      have shut : step conf ctx (.close written) = (nextFrag conf {ctx with opened:=false},some ⟨getFrag conf ctx ctx.nfrags,
          if written then some (writePlaylist conf (nextFrag conf {ctx with opened:=false})) else none⟩) := by
        simp [step,closeFragment,opened]
      rw [shut] at bound ⊢
      have after := nextFrag_keeps window opened (by simpa using bound)
      refine ⟨by simpa using after,?_⟩
      intro c p same listed
      cases same
      cases written with
      | false => cases listed
      | true =>
        cases listed
        exact writePlaylist_lists after

theorem run_keeps (sequential : conf.naming = .sequential) (whole : conf.granularity = 0)
    (events : List Event) (ctx : Ctx) (closed : List Frag) (window : Window conf start closed ctx)
    (bound : start.toNat+(closed ++ (run conf ctx events).2.map Closed.frag).length < 2^64) :
    Window conf start (closed ++ (run conf ctx events).2.map Closed.frag) (run conf ctx events).1 ∧
    ∀ j c p, (run conf ctx events).2[j]? = some c → c.playlist = some p →
      Lists conf start (closed ++ ((run conf ctx events).2.take (j+1)).map Closed.frag) p := by
  induction events generalizing ctx closed with
  | nil => exact ⟨by simpa [run] using window,by intro j c p none; simp [run] at none⟩
  | cons event events ih =>
    simp only [run,map_append,← append_assoc] at bound ⊢
    obtain ⟨kept,lists⟩ := step_keeps sequential whole event window (by rw [length_append] at bound; omega)
    obtain ⟨last,later⟩ := ih _ _ kept bound
    refine ⟨last,?_⟩
    intro j c p at_j listed
    cases once : (step conf ctx event).2 with
    | none =>
      rw [once] at at_j later
      simpa using later j c p (by simpa using at_j) listed
    | some first =>
      rw [once] at at_j later
      cases j with
      | zero =>
        obtain rfl : first = c := by simpa using at_j
        simpa using lists first p once listed
      | succ j => simpa using later j c p (by simpa using at_j) listed

theorem window_start (shut : ctx.opened = false) (fresh : ctx.nfrags = 0) : Window conf ctx.frag [] ctx := by
  refine ⟨by simp [fresh],by simp [fresh],by simpa using ctx.frag.toNat_lt,by simp [entries,fresh],by simp,?_⟩
  intro opened
  rw [shut] at opened
  cases opened

theorem lists_numbered (lists : Lists conf start closed p) (ids : ∀ (j : Nat) f, closed[j]? = some f → f.id.toNat = start.toNat+j)
    (at_i : p.entries[i]? = some f) : f.id.toNat = p.sequence.toNat+i := by
  obtain ⟨sequence,listed⟩ := lists
  rw [listed,getElem?_drop] at at_i
  have id := ids _ f at_i
  omega

-- Each playlist lists the last closed fragments from its media sequence on, which never goes back.
def Windowed (conf : Conf) (ended : Ctx × List Closed) : Prop :=
  (∀ (j : Nat) c p, ended.2[j]? = some c → c.playlist = some p →
    p.entries = ((ended.2.take (j+1)).map Closed.frag).drop (j+1-min (j+1) conf.winfrags) ∧
    ∀ (i : Nat) f, p.entries[i]? = some f → f.id.toNat = p.sequence.toNat+i) ∧
  (∀ (i j : Nat) c d p q, i ≤ j → ended.2[i]? = some c → ended.2[j]? = some d → c.playlist = some p → d.playlist = some q →
    p.sequence ≤ q.sequence) ∧
  ∀ ts system discont made i, i < ended.1.nfrags →
    getFrag conf (openFragment conf ts system discont made ended.1) i = getFrag conf ended.1 i

theorem openFragment_lists (window : Window conf start closed ctx) (listed : i < ctx.nfrags) :
    getFrag conf (openFragment conf ts system discont made ctx) i = getFrag conf ctx i := by
  unfold openFragment
  split
  · rfl
  · split
    · exact Function.update_of_ne (slot_apart window listed) _ _
    · rfl

theorem windowed_of_kept (last : Window conf start (ended.2.map Closed.frag) ended.1)
    (lists : ∀ j c p, ended.2[j]? = some c → c.playlist = some p → Lists conf start ((ended.2.take (j+1)).map Closed.frag) p) :
    Windowed conf ended := by
  have size : ∀ (j : Nat) (c : Closed), ended.2[j]? = some c → ((ended.2.take (j+1)).map Closed.frag).length = j+1 := by
    intro j c at_j
    have inside := (List.getElem?_eq_some_iff.mp at_j).1
    rw [length_map,length_take]
    omega
  refine ⟨?_,?_,?_⟩
  · intro j c p at_j listed
    have here := lists j c p at_j listed
    refine ⟨by rw [here.2,size j c at_j],?_⟩
    intro i f at_i
    refine lists_numbered here ?_ at_i
    intro k g at_k
    rw [map_take,getElem?_take] at at_k
    split at at_k
    · exact last.ids k g at_k
    · cases at_k
  · intro i j c d p q le at_i at_j first second
    have early := (lists i c p at_i first).1
    have late := (lists j d q at_j second).1
    rw [size i c at_i] at early
    rw [size j d at_j] at late
    rw [UInt64.le_iff_toNat_le]
    omega
  · intro ts system discont made i listed
    exact openFragment_lists last listed

theorem run_windowed (conf : Conf) (ctx : Ctx) (events : List Event) (sequential : conf.naming = .sequential)
    (whole : conf.granularity = 0) (shut : ctx.opened = false) (fresh : ctx.nfrags = 0)
    (unwrapped : ctx.frag.toNat+(run conf ctx events).2.length < 2^64) : Windowed conf (run conf ctx events) := by
  obtain ⟨last,lists⟩ := run_keeps sequential whole events ctx [] (window_start shut fresh) (by simpa using unwrapped)
  exact windowed_of_kept last lists

-- A window of two over three fragments.
def twoListed : Conf := ⟨5000,50000,2,0,.plain,.sequential,0⟩
def threeFragments : List Event :=
  [.open 0 0 true true,.measure 450000,.close true,.open 450000 0 false true,.measure 900000,.close true,
   .open 900000 0 false true,.measure 1350000,.close true]

theorem run_windowed_three :
    ((run twoListed (published fun _ => ⟨7,7,false,false⟩) threeFragments).2.map fun c => c.playlist.map fun p =>
      (p.sequence,p.entries.map Frag.id)) = [some (0,[0]),some (0,[0,1]),some (1,[1,2])] ∧
    Windowed twoListed (run twoListed (published fun _ => ⟨7,7,false,false⟩) threeFragments) := by
  refine ⟨by decide,run_windowed _ _ _ rfl rfl rfl rfl ?_⟩
  decide

-- The counter is taken over from a relayed stream and can pass its end.
def oneListed : Conf := ⟨5000,50000,1,0,.plain,.sequential,0⟩
def relayedLast : Ctx := startHlsSlice true 18446744073709551615 0 (published fun _ => ⟨0,0,false,false⟩)
def twoFragments : List Event := [.open 0 0 true true,.close true,.open 450000 0 false true,.close true]

theorem media_sequence_wraps :
    ((run oneListed relayedLast twoFragments).2.map fun c => c.playlist.map Playlist.sequence) =
      [some 18446744073709551615,some 0] ∧
    ¬ Windowed oneListed (run oneListed relayedLast twoFragments) := by
  refine ⟨by decide,?_⟩
  rintro ⟨_,monotone,_⟩
  have back := monotone 0 1
    ⟨⟨18446744073709551615,0,true,true⟩,some ⟨18446744073709551615,5,[⟨18446744073709551615,0,true,true⟩]⟩⟩
    ⟨⟨0,0,true,false⟩,some ⟨0,5,[⟨0,0,true,false⟩]⟩⟩ _ _ (by decide) (by decide +kernel) (by decide +kernel) rfl rfl
  revert back
  decide

theorem run_append (conf : Conf) (ctx : Ctx) (first second : List Event) : run conf ctx (first ++ second) =
    ((run conf (run conf ctx first).1 second).1,(run conf ctx first).2 ++ (run conf (run conf ctx first).1 second).2) := by
  induction first generalizing ctx with
  | nil => rfl
  | cons event first ih => simp [run,ih]

theorem turnOver_run :
    run conf ctx [.close m.written,.open m.ts m.system discont m.made] =
      ((turnOver conf m discont ctx).1,(turnOver conf m discont ctx).2.toList) := by
  simp [run,step,turnOver]

def clocked (conf : Conf) (m : Message) (ctx : Ctx) (base : UInt32) (first : Bool) : Ctx :=
  {measure conf m.ts ctx with fragTs:=(slice conf (measure conf m.ts ctx) m).2,baseTimestamp:=base,isFirstPackge:=first}

theorem updateFragment_cases (conf : Conf) (relay : Bool) (m : Message) (ctx : Ctx) : ∃ base first,
    updateFragment conf relay m ctx = (clocked conf m ctx base first,none) ∨
    ∃ discont, updateFragment conf relay m ctx = turnOver conf m discont (clocked conf m ctx base first) := by
  unfold updateFragment
  simp only
  split
  · split
    · exact ⟨_,_,.inl rfl⟩
    · split
      · split
        · exact ⟨_,_,.inl rfl⟩
        · exact ⟨_,_,.inr ⟨_,rfl⟩⟩
      · exact ⟨_,_,.inl rfl⟩
  · split
    · exact ⟨_,_,.inr ⟨_,rfl⟩⟩
    · exact ⟨_,_,.inl rfl⟩

theorem updateFragment_run : ∃ events,
    run conf ctx events = ((updateFragment conf relay m ctx).1,(updateFragment conf relay m ctx).2.toList) := by
  obtain ⟨base,first,quiet | ⟨discont,turned⟩⟩ := updateFragment_cases conf relay m ctx
  · rw [quiet]
    exact ⟨[.measure m.ts,.clock (slice conf (measure conf m.ts ctx) m).2 base first],rfl⟩
  · refine ⟨[.measure m.ts,.clock (slice conf (measure conf m.ts ctx) m).2 base first] ++
      [.close m.written,.open m.ts m.system discont m.made],?_⟩
    have clocks : run conf ctx [.measure m.ts,.clock (slice conf (measure conf m.ts ctx) m).2 base first] =
        (clocked conf m ctx base first,[]) := rfl
    rw [run_append,clocks,turnOver_run,nil_append,turned]

def opens (before : Ctx) (once : Ctx × Option Closed) : Bool := once.1.opened && (once.2.isSome || !before.opened)

def updates (conf : Conf) (relay : Bool) : Ctx → List Message → Ctx × List Closed
  | ctx,[] => (ctx,[])
  | ctx,m::rest =>
    let once := updateFragment conf relay m ctx
    let later := updates conf relay once.1 rest
    (later.1,once.2.toList ++ later.2)

theorem updates_run (messages : List Message) (ctx : Ctx) : ∃ events, run conf ctx events = updates conf relay ctx messages := by
  induction messages generalizing ctx with
  | nil => exact ⟨[],rfl⟩
  | cons m messages ih =>
    obtain ⟨first,once⟩ := updateFragment_run
    obtain ⟨second,later⟩ := ih (updateFragment conf relay m ctx).1
    refine ⟨first ++ second,?_⟩
    rw [run_append,once,later]
    rfl

theorem updates_windowed (sequential : conf.naming = .sequential)
    (whole : conf.granularity = 0) (shut : ctx.opened = false) (fresh : ctx.nfrags = 0)
    (unwrapped : ctx.frag.toNat+(updates conf relay ctx messages).2.length < 2^64) :
    Windowed conf (updates conf relay ctx messages) := by
  obtain ⟨events,same⟩ := updates_run messages ctx
  rw [← same] at unwrapped ⊢
  obtain ⟨last,lists⟩ := run_keeps sequential whole events ctx [] (window_start shut fresh) (by simpa using unwrapped)
  exact windowed_of_kept last lists

theorem updates_windowed_keyed :
    Windowed twoListed (updates twoListed false (published fun _ => ⟨7,7,false,false⟩)
      [⟨0,0,true,0,true,true⟩,⟨504000,5600,true,0,true,true⟩]) :=
  updates_windowed rfl rfl rfl rfl (by decide)

end NgxRtmp.HlsWindow

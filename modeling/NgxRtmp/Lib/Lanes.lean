import Mathlib

namespace NgxRtmp.Lanes
open Function List

-- A machine that takes items one by one, puts out any number of results for
-- each, and may refuse.
def run (step : σ → α → Option (σ × List β)) : σ → List α → Option (σ × List β)
  | s,[] => some (s,[])
  | s,a::rest => (step s a).bind fun (t,out) => (run step t rest).map fun (u,more) => (u,out ++ more)

theorem run_cons (stepped : step s a = some (t,out)) (rest : run step t items = some (u,more)) :
    run step s (a::items) = some (u,out ++ more) := by
  simp only [run,stepped,Option.bind_some,rest,Option.map_some]

theorem run_append (first : run step s items = some (t,out)) (second : run step t others = some (u,more)) :
    run step s (items ++ others) = some (u,out ++ more) := by
  induction items generalizing s out with
  | nil =>
    cases first
    exact second
  | cons a items ih =>
    obtain ⟨⟨m,now⟩,stepped,rest⟩ := Option.bind_eq_some_iff.mp first
    obtain ⟨⟨v,later⟩,tail,result⟩ := Option.map_eq_some_iff.mp rest
    cases result
    rw [append_assoc]
    exact run_cons stepped (ih tail)

def lane [DecidableEq ι] (n : ι) (schedule : List (ι × α)) : List α :=
  schedule.filterMap fun x => if x.1 = n then some x.2 else none

-- Many such machines side by side. Each item goes to the machine of its lane.
def weave [DecidableEq ι] (step : ι → σ → α → Option (σ × List β)) :
    (ι → σ) → List (ι × α) → Option ((ι → σ) × List (ι × β))
  | s,[] => some (s,[])
  | s,(n,a)::rest => (step n (s n) a).bind fun (t,out) =>
    (weave step (update s n t) rest).map fun (u,more) => (u,out.map (fun b => (n,b)) ++ more)

section Weave
variable [DecidableEq ι] {step : ι → σ → α → Option (σ × List β)}

theorem lane_append (n : ι) (left right : List (ι × α)) : lane n (left ++ right) = lane n left ++ lane n right :=
  filterMap_append

theorem lane_cons_own {n : ι} : lane n ((n,a)::rest) = a::lane n rest :=
  filterMap_cons_some (if_pos rfl)

theorem lane_cons_other (other : n ≠ m) {rest : List (ι × α)} : lane n ((m,a)::rest) = lane n rest :=
  filterMap_cons_none (if_neg (Ne.symm other))

theorem lane_own {n : ι} {items : List α} : lane n (items.map fun a => (n,a)) = items := by
  induction items with
  | nil => rfl
  | cons a items ih => rw [map_cons,lane_cons_own,ih]

theorem lane_other {n : ι} (other : n ≠ m) {items : List α} : lane n (items.map fun a => (m,a)) = [] := by
  induction items with
  | nil => rfl
  | cons a items ih => rw [map_cons,lane_cons_other other,ih]

theorem mem_lane {n : ι} (member : (n,a) ∈ schedule) : a ∈ lane n schedule :=
  mem_filterMap.mpr ⟨(n,a),member,if_pos rfl⟩

theorem lane_keyed {key : α → ι} (keyed : ∀ x ∈ schedule, key x.2 = x.1) :
    lane n schedule = (schedule.map Prod.snd).filter fun a => key a = n := by
  induction schedule with
  | nil => rfl
  | cons x rest ih =>
    obtain ⟨m,a⟩ := x
    have own : key a = m := keyed (m,a) mem_cons_self
    have others := ih fun y member => keyed y (mem_cons_of_mem _ member)
    by_cases same : m = n
    · subst same
      rw [lane_cons_own,others,map_cons,filter_cons_of_pos (by simp [own])]
    · rw [lane_cons_other (Ne.symm same),others,map_cons,filter_cons_of_neg (by simp [own,same])]

def sequential (items : ι → List α) (order : List ι) : List (ι × α) := order.flatMap fun n => (items n).map fun a => (n,a)

theorem lane_sequential {order : List ι} (once : order.Nodup) :
    lane n (sequential items order) = if n ∈ order then items n else [] := by
  induction order with
  | nil => rfl
  | cons m rest ih =>
    obtain ⟨fresh,later⟩ := nodup_cons.mp once
    have split : sequential items (m::rest) = (items m).map (fun a => (m,a)) ++ sequential items rest := flatMap_cons
    rw [split,lane_append,ih later]
    by_cases own : n = m
    · subst own
      rw [lane_own,if_neg fresh,append_nil,if_pos mem_cons_self]
    · rw [lane_other own,nil_append]
      by_cases member : n ∈ rest
      · rw [if_pos member,if_pos (mem_cons_of_mem _ member)]
      · rw [if_neg member,if_neg (by simp [own,member])]

theorem weave_append (first : weave step s items = some (t,out)) (second : weave step t others = some (u,more)) :
    weave step s (items ++ others) = some (u,out ++ more) := by
  induction items generalizing s out with
  | nil =>
    cases first
    exact second
  | cons item items ih =>
    obtain ⟨n,a⟩ := item
    obtain ⟨⟨m,now⟩,stepped,rest⟩ := Option.bind_eq_some_iff.mp first
    obtain ⟨⟨v,later⟩,tail,result⟩ := Option.map_eq_some_iff.mp rest
    cases result
    simp only [cons_append,weave,stepped,Option.bind_some,ih tail,Option.map_some,append_assoc]

theorem weave_single (alone : run (step n) (s n) items = some (t,out)) :
    weave step s (items.map fun a => (n,a)) = some (update s n t,out.map fun b => (n,b)) := by
  induction items generalizing s out with
  | nil =>
    cases alone
    rw [update_eq_self]
    rfl
  | cons a items ih =>
    obtain ⟨⟨m,now⟩,stepped,rest⟩ := Option.bind_eq_some_iff.mp alone
    obtain ⟨⟨v,later⟩,tail,result⟩ := Option.map_eq_some_iff.mp rest
    cases result
    have here : run (step n) (update s n m n) items = some (t,later) := by rwa [update_self]
    have woven := ih here
    rw [update_idem] at woven
    simp only [map_cons,weave,stepped,Option.bind_some,woven,Option.map_some,map_append]

theorem weave_lanes {s : ι → σ} (schedule : List (ι × α)) (t : ι → σ) (outs : ι → List β)
    (alone : ∀ n, run (step n) (s n) (lane n schedule) = some (t n,outs n)) :
    ∃ out, weave step s schedule = some (t,out) ∧ ∀ n, lane n out = outs n := by
  induction schedule generalizing s outs with
  | nil =>
    refine ⟨[],?_,fun n => ?_⟩
    · have same : s = t := funext fun n => congrArg Prod.fst (Option.some.inj (alone n))
      rw [same]
      rfl
    · exact congrArg Prod.snd (Option.some.inj (alone n))
  | cons item rest ih =>
    obtain ⟨m,a⟩ := item
    have moved := alone m
    rw [lane_cons_own] at moved
    obtain ⟨⟨v,now⟩,stepped,tail⟩ := Option.bind_eq_some_iff.mp moved
    obtain ⟨⟨u,later⟩,tail,result⟩ := Option.map_eq_some_iff.mp tail
    simp only [Prod.mk.injEq] at result
    obtain ⟨rfl,later_eq⟩ := result
    obtain ⟨out,woven,lanes⟩ := ih (s:=update s m v) (update outs m later) (by
      intro n
      by_cases own : n = m
      · subst own
        rw [update_self,update_self]
        exact tail
      · rw [update_of_ne own,update_of_ne own,←lane_cons_other own]
        exact alone n)
    refine ⟨now.map (fun b => (m,b)) ++ out,?_,fun n => ?_⟩
    · simp only [weave,stepped,Option.bind_some,woven,Option.map_some]
    · rw [lane_append,lanes n]
      by_cases own : n = m
      · subst own
        rw [lane_own,update_self]
        exact later_eq
      · rw [lane_other own,update_of_ne own]
        rfl

end Weave

end NgxRtmp.Lanes

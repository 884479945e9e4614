import PliLlvm.Lib.Linked
import PliLlvm.Runtime.RtSched

/- The task that rt_next_runnable takes from its worker's runnext slot and local list. The
   worker's own steps are those of the scheduler; between them other threads may do anything
   that leaves alone what the worker has to itself: its slot, the list until it is detached,
   and the links and priorities of the tasks it chooses among. -/
namespace PliNextRunnable
open PliRtSched Links Runs
open Function (update update_eq_self update_idem update_of_ne update_self)

def detached : Pc → Bool
  | .scan .. | .compare .. | .unlink .. | .relink .. | .cut .. => true
  | .tail (.best _) .. | .listHead (.best _) .. | .listLink (.best _) .. |
    .listCas (.best _) .. => true
  | _ => false

def isStart : Pc → Bool
  | .start _ => true
  | _ => false

/-- What other threads do while the worker chooses; `arrived` is what they have put in the
    place of the detached list. -/
structure Meanwhile (w : Nat) (tasks : List Nat) (s : Sys) (arrived : List Nat) (s' : Sys)
    (arrived' : List Nat) : Prop where
  pc : s'.pc w = s.pc w
  choosing : isStart (s.pc w) = false
  runnext : s'.runnext w = s.runnext w
  prioUsed : s'.prioUsed = s.prioUsed
  links : ∀ f ∈ tasks, s'.next f = s.next f
  priorities : ∀ f ∈ tasks, s'.prio f = s.prio f
  whole : detached (s.pc w) = false → s'.localQ w = s.localQ w ∧ arrived' = arrived
  queue : detached (s.pc w) = true → Linked s'.next (s'.localQ w) arrived'
  apart : detached (s.pc w) = true → ∀ f ∈ arrived', f ∉ tasks

inductive Choice (workers w : Nat) (tasks : List Nat) : Sys → List Nat → Sys → List Nat → Prop where
  | refl (s : Sys) (arrived : List Nat) : Choice workers w tasks s arrived s arrived
  | own {s mid s' : Sys} {arrived arrived' : List Nat} (choosing : isStart (s.pc w) = false)
      (ticked : tick workers s w = some mid)
      (rest : Choice workers w tasks mid arrived s' arrived') :
      Choice workers w tasks s arrived s' arrived'
  | other {s mid s' : Sys} {arrived between arrived' : List Nat}
      (meanwhile : Meanwhile w tasks s arrived mid between)
      (rest : Choice workers w tasks mid between s' arrived') :
      Choice workers w tasks s arrived s' arrived'

def ownSteps (workers w : Nat) : Nat → Sys → Option Sys
  | 0, s => some s
  | n + 1, s => (tick workers s w).bind (ownSteps workers w n)

def FirstMax {α : Type} (key : α → Int) (before : List α) (best : α) (after : List α) : Prop :=
  (∀ f ∈ before, key f < key best) ∧ ∀ f ∈ after, key f ≤ key best

theorem FirstMax.later {α : Type} {key : α → Int} {before after : List α} {best cur : α}
    (first : FirstMax key before best after) (less : ¬key best < key cur) :
    FirstMax key before best (after ++ [cur]) := by
  refine ⟨first.1, fun f member => ?_⟩
  rcases List.mem_append.mp member with seen | last
  · exact first.2 f seen
  · obtain rfl := List.mem_singleton.mp last
    omega

theorem FirstMax.better {α : Type} {key : α → Int} {before after : List α} {best cur : α}
    (first : FirstMax key before best after) (more : key best < key cur) :
    FirstMax key (before ++ best :: after) cur [] := by
  refine ⟨fun f member => ?_, fun f member => absurd member List.not_mem_nil⟩
  rcases List.mem_append.mp member with seen | here
  · exact lt_trans (first.1 f seen) more
  · rcases List.mem_cons.mp here with rfl | seen
    · exact more
    · exact lt_of_le_of_lt (first.2 f seen) more

theorem FirstMax.congr {α : Type} {key key' : α → Int} {before after : List α} {best : α}
    (first : FirstMax key before best after)
    (same : ∀ f ∈ before ++ best :: after, key' f = key f) :
    FirstMax key' before best after := by
  have here : key' best = key best := same best (by simp)
  refine ⟨fun f member => ?_, fun f member => ?_⟩
  · rw [here, same f (by simp [member])]
    exact first.1 f member
  · rw [here, same f (by simp [member])]
    exact first.2 f member

structure Aside (w : Nat) (tasks : List Nat) (s : Sys) (arrived : List Nat) : Prop where
  slot : s.runnext w = none
  queue : Linked s.next (s.localQ w) arrived
  apart : ∀ f ∈ arrived, f ∉ tasks

/-- How far the choice is once priorities are in use, and a bound on the worker's steps that
    are left if nothing comes between them. -/
inductive Ranked (w : Nat) (tasks : List Nat) (s : Sys) : List Nat → Nat → Prop where
  | next {queue : List Nat} (place : s.pc w = .next) (listed : Linked s.next (s.localQ w) queue)
      (whole : (s.runnext w).toList ++ queue = tasks) : Ranked w tasks s [] (3 * tasks.length + 15)
  | prio {f : Nat} {queue : List Nat} (place : s.pc w = .prio f) (slot : s.runnext w = none)
      (listed : Linked s.next (s.localQ w) queue) (whole : f :: queue = tasks) :
      Ranked w tasks s [] (3 * tasks.length + 14)
  | push {f : Nat} {queue : List Nat} (place : s.pc w = .push (.own .fold) f)
      (slot : s.runnext w = none) (listed : Linked s.next (s.localQ w) queue)
      (whole : f :: queue = tasks) : Ranked w tasks s [] (3 * tasks.length + 13)
  | pushLink {f : Nat} {queue : List Nat}
      (place : s.pc w = .pushLink (.own .fold) f (s.localQ w)) (slot : s.runnext w = none)
      (listed : Linked s.next (s.localQ w) queue) (whole : f :: queue = tasks) :
      Ranked w tasks s [] (3 * tasks.length + 12)
  | pushCas {f : Nat} (place : s.pc w = .pushCas (.own .fold) f (s.localQ w))
      (slot : s.runnext w = none) (listed : Linked s.next (some f) tasks)
      (link : s.next f = s.localQ w) : Ranked w tasks s [] (3 * tasks.length + 11)
  | popBest {stolen : Bool} (place : s.pc w = .popBest stolen) (slot : s.runnext w = none)
      (listed : Linked s.next (s.localQ w) tasks) : Ranked w tasks s [] (3 * tasks.length + 10)
  | detach {stolen : Bool} (place : s.pc w = .detach stolen) (slot : s.runnext w = none)
      (listed : Linked s.next (s.localQ w) tasks) : Ranked w tasks s [] (3 * tasks.length + 9)
  | scan {list best prev : Nat} {before after seen later arrived : List Nat}
      (place : s.pc w = .scan list best before.getLast? prev) (aside : Aside w tasks s arrived)
      (listed : Linked s.next (some list) tasks) (whole : seen ++ prev :: later = tasks)
      (found : before ++ best :: after = seen ++ [prev])
      (first : FirstMax s.prio before best after) :
      Ranked w tasks s arrived (2 * later.length + tasks.length + 8)
  | compare {list best prev cur : Nat} {before after seen later arrived : List Nat}
      (place : s.pc w = .compare list best before.getLast? prev cur)
      (aside : Aside w tasks s arrived) (listed : Linked s.next (some list) tasks)
      (whole : seen ++ prev :: cur :: later = tasks)
      (found : before ++ best :: after = seen ++ [prev])
      (first : FirstMax s.prio before best after) :
      Ranked w tasks s arrived (2 * later.length + tasks.length + 9)
  | unlink {list best : Nat} {before after arrived : List Nat}
      (place : s.pc w = .unlink list best before.getLast?) (aside : Aside w tasks s arrived)
      (listed : Linked s.next (some list) tasks) (whole : before ++ best :: after = tasks)
      (first : FirstMax s.prio before best after) : Ranked w tasks s arrived (tasks.length + 7)
  | relink {list best : Nat} {before after arrived : List Nat}
      (place : s.pc w = .relink list best before.getLast? (s.next best))
      (aside : Aside w tasks s arrived) (listed : Linked s.next (some list) tasks)
      (whole : before ++ best :: after = tasks) (first : FirstMax s.prio before best after) :
      Ranked w tasks s arrived (tasks.length + 6)
  | cut {list : Option Nat} {best : Nat} {before after arrived : List Nat}
      (place : s.pc w = .cut list best) (aside : Aside w tasks s arrived)
      (listed : Linked s.next list (before ++ after)) (whole : before ++ best :: after = tasks)
      (first : FirstMax s.prio before best after) : Ranked w tasks s arrived (tasks.length + 5)
  | tail {list best p : Nat} {before after walked later arrived : List Nat}
      (place : s.pc w = .tail (.best best) list p) (aside : Aside w tasks s arrived)
      (listed : Linked s.next (some list) (before ++ after))
      (whole : before ++ best :: after = tasks) (first : FirstMax s.prio before best after)
      (reached : walked ++ p :: later = before ++ after) :
      Ranked w tasks s arrived (later.length + 5)
  | listHead {list best p : Nat} {before after walked arrived : List Nat}
      (place : s.pc w = .listHead (.best best) list p) (aside : Aside w tasks s arrived)
      (listed : Linked (update s.next p none) (some list) (walked ++ [p]))
      (whole : before ++ best :: after = tasks) (first : FirstMax s.prio before best after)
      (reached : walked ++ [p] = before ++ after) : Ranked w tasks s arrived 4
  | listLink {list best p : Nat} {h : Option Nat} {before after walked arrived : List Nat}
      (place : s.pc w = .listLink (.best best) list p h) (aside : Aside w tasks s arrived)
      (listed : Linked (update s.next p none) (some list) (walked ++ [p]))
      (whole : before ++ best :: after = tasks) (first : FirstMax s.prio before best after)
      (reached : walked ++ [p] = before ++ after) :
      Ranked w tasks s arrived (if s.localQ w = h then 3 else 7)
  | listCas {list best p : Nat} {h : Option Nat} {before after walked arrived : List Nat}
      (place : s.pc w = .listCas (.best best) list p h) (aside : Aside w tasks s arrived)
      (listed : Linked (update s.next p none) (some list) (walked ++ [p]))
      (link : s.next p = h) (whole : before ++ best :: after = tasks)
      (first : FirstMax s.prio before best after) (reached : walked ++ [p] = before ++ after) :
      Ranked w tasks s arrived (if s.localQ w = h then 2 else 6)
  | start {f : Nat} {before after arrived : List Nat} (place : s.pc w = .start f)
      (slot : s.runnext w = none) (listed : Linked s.next (s.localQ w) (before ++ after ++ arrived))
      (apart : ∀ g ∈ arrived, g ∉ tasks) (whole : before ++ f :: after = tasks)
      (first : FirstMax s.prio before f after) :
      Ranked w tasks s arrived 0

theorem goto_pc (s : Sys) (w : Nat) (pc : Pc) : (s.goto w pc).pc w = pc := update_self ..

theorem goto_localQ (s : Sys) (w : Nat) (pc : Pc) : (s.goto w pc).localQ = s.localQ := rfl

theorem goto_next (s : Sys) (w : Nat) (pc : Pc) : (s.goto w pc).next = s.next := rfl

theorem setNext_localQ (s : Sys) (f : Nat) (h : Option Nat) : (s.setNext f h).localQ = s.localQ :=
  rfl

theorem setNext_next (s : Sys) (f : Nat) (h : Option Nat) :
    (s.setNext f h).next = update s.next f h := rfl

theorem setLocal_self (s : Sys) (w : Nat) (h : Option Nat) : (s.setLocal w h).localQ w = h :=
  update_self ..

theorem rest_inside {before after : List Nat} {best f : Nat} (member : f ∈ before ++ after) :
    f ∈ before ++ best :: after := by
  rcases List.mem_append.mp member with early | late
  · exact List.mem_append_left _ early
  · exact List.mem_append_right _ (List.mem_cons_of_mem _ late)

section Steps
variable {workers w : Nat} {tasks arrived arrived' : List Nat} {s s' : Sys} {n : Nat}

theorem Aside.meanwhile (aside : Aside w tasks s arrived) (here : detached (s.pc w) = true)
    (meanwhile : Meanwhile w tasks s arrived s' arrived') : Aside w tasks s' arrived' :=
  ⟨meanwhile.runnext.trans aside.slot, meanwhile.queue here, meanwhile.apart here⟩

theorem Ranked.meanwhile (ranked : Ranked w tasks s arrived n)
    (meanwhile : Meanwhile w tasks s arrived s' arrived') :
    ∃ n', Ranked w tasks s' arrived' n' := by
  have links : ∀ {head : Option Nat} {l : List Nat}, Linked s.next head l → (∀ f ∈ l, f ∈ tasks) →
      Linked s'.next head l :=
    fun listed inside => listed.frame fun f member => meanwhile.links f (inside f member)
  have cut : ∀ {head : Option Nat} {l : List Nat} {p : Nat},
      Linked (update s.next p none) head l → (∀ f ∈ l, f ∈ tasks) →
      Linked (update s'.next p none) head l := by
    intro head l p listed inside
    refine listed.frame fun f member => ?_
    by_cases here : f = p
    · rw [here, update_self, update_self]
    · rw [update_of_ne here, update_of_ne here]
      exact meanwhile.links f (inside f member)
  have best : ∀ {before after : List Nat} {best : Nat}, FirstMax s.prio before best after →
      (∀ f ∈ before ++ best :: after, f ∈ tasks) → FirstMax s'.prio before best after :=
    fun first inside => first.congr fun f member => meanwhile.priorities f (inside f member)
  have place := meanwhile.pc
  have slot := meanwhile.runnext
  have stay : detached (s.pc w) = false → s'.localQ w = s.localQ w ∧ arrived' = arrived :=
    meanwhile.whole
  have aside : detached (s.pc w) = true → Aside w tasks s arrived → Aside w tasks s' arrived' :=
    fun here old => old.meanwhile here meanwhile
  cases ranked with
  | next here listed whole =>
    obtain ⟨same, rfl⟩ := stay (by rw [here]; rfl)
    subst whole
    refine ⟨_, .next (place.trans here) ?_ (by rw [slot])⟩
    rw [same]
    exact links listed fun f member => List.mem_append_right _ member
  | prio here empty listed whole =>
    obtain ⟨same, rfl⟩ := stay (by rw [here]; rfl)
    subst whole
    refine ⟨_, .prio (place.trans here) (slot.trans empty) ?_ rfl⟩
    rw [same]
    exact links listed fun f member => List.mem_cons_of_mem _ member
  | push here empty listed whole =>
    obtain ⟨same, rfl⟩ := stay (by rw [here]; rfl)
    subst whole
    refine ⟨_, .push (place.trans here) (slot.trans empty) ?_ rfl⟩
    rw [same]
    exact links listed fun f member => List.mem_cons_of_mem _ member
  | pushLink here empty listed whole =>
    obtain ⟨same, rfl⟩ := stay (by rw [here]; rfl)
    subst whole
    rw [← same] at here
    refine ⟨_, .pushLink (place.trans here) (slot.trans empty) ?_ rfl⟩
    rw [same]
    exact links listed fun f member => List.mem_cons_of_mem _ member
  | pushCas here empty listed link =>
    obtain ⟨same, rfl⟩ := stay (by rw [here]; rfl)
    rw [← same] at here link
    refine ⟨_, .pushCas (place.trans here) (slot.trans empty)
      (links listed fun f member => member) ?_⟩
    obtain ⟨queue, rfl, -⟩ := linked_some.mp listed
    rw [meanwhile.links _ List.mem_cons_self, link]
  | popBest here empty listed =>
    obtain ⟨same, rfl⟩ := stay (by rw [here]; rfl)
    refine ⟨_, .popBest (place.trans here) (slot.trans empty) ?_⟩
    rw [same]
    exact links listed fun f member => member
  | detach here empty listed =>
    obtain ⟨same, rfl⟩ := stay (by rw [here]; rfl)
    refine ⟨_, .detach (place.trans here) (slot.trans empty) ?_⟩
    rw [same]
    exact links listed fun f member => member
  | scan here old listed whole found first =>
    refine ⟨_, .scan (place.trans here) (aside (by rw [here]; rfl) old)
      (links listed fun f member => member) whole found (best first fun f member => ?_)⟩
    rw [← whole, List.append_cons, ← found]
    exact List.mem_append_left _ member
  | compare here old listed whole found first =>
    refine ⟨_, .compare (place.trans here) (aside (by rw [here]; rfl) old)
      (links listed fun f member => member) whole found (best first fun f member => ?_)⟩
    rw [← whole, List.append_cons, ← found]
    exact List.mem_append_left _ member
  | unlink here old listed whole first =>
    exact ⟨_, .unlink (place.trans here) (aside (by rw [here]; rfl) old)
      (links listed fun f member => member) whole (best first fun f member => whole ▸ member)⟩
  | relink here old listed whole first =>
    have named := meanwhile.links _ (whole ▸ List.mem_append_right _ List.mem_cons_self)
    rw [← named] at here
    exact ⟨_, .relink (place.trans here) (aside (by rw [here]; rfl) old)
      (links listed fun f member => member) whole (best first fun f member => whole ▸ member)⟩
  | cut here old listed whole first =>
    refine ⟨_, .cut (place.trans here) (aside (by rw [here]; rfl) old) (links listed ?_) whole
      (best first fun f member => whole ▸ member)⟩
    exact fun f member => whole ▸ rest_inside member
  | tail here old listed whole first reached =>
    refine ⟨_, .tail (place.trans here) (aside (by rw [here]; rfl) old) (links listed ?_) whole
      (best first fun f member => whole ▸ member) reached⟩
    exact fun f member => whole ▸ rest_inside member
  | listHead here old listed whole first reached =>
    refine ⟨_, .listHead (place.trans here) (aside (by rw [here]; rfl) old) (cut listed ?_) whole
      (best first fun f member => whole ▸ member) reached⟩
    exact fun f member => whole ▸ rest_inside (reached ▸ member)
  | listLink here old listed whole first reached =>
    refine ⟨_, .listLink (place.trans here) (aside (by rw [here]; rfl) old) (cut listed ?_) whole
      (best first fun f member => whole ▸ member) reached⟩
    exact fun f member => whole ▸ rest_inside (reached ▸ member)
  | listCas here old listed link whole first reached =>
    have inside : ∀ f ∈ _ ++ [_], f ∈ tasks :=
      fun f member => whole ▸ rest_inside (reached ▸ member)
    refine ⟨_, .listCas (place.trans here) (aside (by rw [here]; rfl) old) (cut listed inside)
      ?_ whole (best first fun f member => whole ▸ member) reached⟩
    rw [meanwhile.links _ (inside _ (List.mem_append_right _ List.mem_cons_self)), link]
  | start here =>
    have finished := meanwhile.choosing
    rw [here] at finished
    cases finished

theorem Aside.goto (aside : Aside w tasks s arrived) (pc : Pc) :
    Aside w tasks (s.goto w pc) arrived :=
  ⟨aside.slot, aside.queue, aside.apart⟩

theorem Aside.setNext (aside : Aside w tasks s arrived) {f : Nat} (own : f ∈ tasks)
    (h : Option Nat) (pc : Pc) : Aside w tasks ((s.setNext f h).goto w pc) arrived :=
  ⟨aside.slot, aside.queue.update fun member => aside.apart f member own, aside.apart⟩

theorem Ranked.own (ranked : Ranked w tasks s arrived n) (used : s.prioUsed = true)
    (occupied : tasks ≠ []) (once : tasks.Nodup) (choosing : isStart (s.pc w) = false) :
    ∃ s' n', tick workers s w = some s' ∧ n' < n ∧ s'.prio = s.prio ∧ s'.prioUsed = s.prioUsed ∧
      Ranked w tasks s' arrived n' := by
  cases ranked with
  | next place listed whole =>
    cases slot : s.runnext w with
    | none =>
      have ticked : tick workers s w = some (s.goto w (.popBest false)) := by
        simp only [tick, place, slot]
      rw [slot] at whole
      exact ⟨_, _, ticked, by omega, rfl, rfl, .popBest (goto_pc ..) slot (whole ▸ listed)⟩
    | some f =>
      have ticked : tick workers s w =
          some ({ s with runnext := update s.runnext w none }.goto w (.prio f)) := by
        simp only [tick, place, slot]
      rw [slot] at whole
      exact ⟨_, _, ticked, by omega, rfl, rfl,
        .prio (goto_pc ..) (update_self ..) listed whole⟩
  | @prio f queue place slot listed whole =>
    have ticked : tick workers s w = some (s.goto w (.push (.own .fold) f)) := by
      simp only [tick, place, used, if_true]
    exact ⟨_, _, ticked, by omega, rfl, rfl, .push (goto_pc ..) slot listed whole⟩
  | @push f queue place slot listed whole =>
    have ticked : tick workers s w =
        some (s.goto w (.pushLink (.own .fold) f (s.localQ w))) := by
      simp only [tick, place, pushHead]
    exact ⟨_, _, ticked, by omega, rfl, rfl, .pushLink (goto_pc ..) slot listed whole⟩
  | @pushLink f queue place slot listed whole =>
    have ticked : tick workers s w =
        some ((s.setNext f (s.localQ w)).goto w (.pushCas (.own .fold) f (s.localQ w))) := by
      simp only [tick, place]
    subst whole
    exact ⟨_, _, ticked, by omega, rfl, rfl, .pushCas (goto_pc ..) slot
      (listed.push (List.nodup_cons.mp once).1) (update_self ..)⟩
  | @pushCas f place slot listed link =>
    have ticked : tick workers s w =
        some ((s.setLocal w (some f)).goto w (.popBest false)) := by
      simp only [tick, place, pushHead, if_true, setPushHead, afterPush]
    refine ⟨_, _, ticked, by omega, rfl, rfl, .popBest (goto_pc ..) slot ?_⟩
    rw [goto_localQ, setLocal_self]
    exact listed
  | @popBest stolen place slot listed =>
    have ticked : tick workers s w = some (s.goto w (.detach stolen)) := by
      simp only [tick, place, used, if_true]
    exact ⟨_, _, ticked, by omega, rfl, rfl, .detach (goto_pc ..) slot listed⟩
  | @detach stolen place slot listed =>
    obtain ⟨list, later, rfl⟩ := List.exists_cons_of_ne_nil occupied
    have head := listed.head_eq
    rw [List.head?_cons] at head
    have ticked : tick workers s w =
        some ((s.setLocal w none).goto w (.scan list list none list)) := by
      simp only [tick, place, head]
    refine ⟨_, _, ticked, ?_, rfl, rfl,
      @Ranked.scan _ _ _ list list list [] [] [] later [] (goto_pc ..) ⟨slot, setLocal_self .., ?_⟩
        (head ▸ listed) rfl rfl ⟨?_, ?_⟩⟩
    · simp only [List.length_cons]
      omega
    all_goals simp
  | @scan list best prev before after seen later arrived place aside listed whole found first =>
    have link : s.next prev = later.head? := (whole ▸ listed).rest.head_eq
    cases later with
    | nil =>
      have ticked : tick workers s w = some (s.goto w (.unlink list best before.getLast?)) := by
        simp only [tick, place, link, List.head?_nil]
      exact ⟨_, _, ticked, by omega, rfl, rfl,
        .unlink (goto_pc ..) (aside.goto _) listed (found.trans whole) first⟩
    | cons cur later =>
      have ticked : tick workers s w =
          some (s.goto w (.compare list best before.getLast? prev cur)) := by
        simp only [tick, place, link, List.head?_cons]
      refine ⟨_, _, ticked, ?_, rfl, rfl,
        .compare (goto_pc ..) (aside.goto _) listed whole found first⟩
      simp only [List.length_cons]
      omega
  | @compare list best prev cur before after seen later arrived place aside listed whole found
      first =>
    have through : (seen ++ [prev]) ++ cur :: later = tasks := by
      rw [← whole, List.append_assoc]
      rfl
    by_cases more : s.prio best < s.prio cur
    · have ticked : tick workers s w = some (s.goto w (.scan list cur (some prev) cur)) := by
        simp only [tick, place, if_pos more]
      have last : (before ++ best :: after).getLast? = some prev := by
        rw [found, List.getLast?_append]
        rfl
      refine ⟨_, _, ticked, by omega, rfl, rfl,
        .scan (last ▸ goto_pc ..) (aside.goto _) listed through ?_ (first.better more)⟩
      rw [found]
    · have ticked : tick workers s w =
          some (s.goto w (.scan list best before.getLast? cur)) := by
        simp only [tick, place, if_neg more]
      refine ⟨_, _, ticked, by omega, rfl, rfl, .scan (goto_pc ..) (aside.goto _) listed through ?_
        (first.later more)⟩
      rw [← found]
      simp
  | @unlink list best before after arrived place aside listed whole first =>
    have ticked : tick workers s w =
        some (s.goto w (.relink list best before.getLast? (s.next best))) := by
      simp only [tick, place]
    exact ⟨_, _, ticked, by omega, rfl, rfl,
      .relink (goto_pc ..) (aside.goto _) listed whole first⟩
  | @relink list best before after arrived place aside listed whole first =>
    subst whole
    rcases List.eq_nil_or_concat before with rfl | ⟨init, p, rfl⟩
    · have ticked : tick workers s w = some (s.goto w (.cut (s.next best) best)) := by
        simp only [tick, place, List.getLast?_nil]
      exact ⟨_, _, ticked, by omega, rfl, rfl,
        @Ranked.cut _ _ _ _ _ [] after _ (goto_pc ..) (aside.goto _) listed.2 rfl first⟩
    · have ticked : tick workers s w =
          some ((s.setNext p (s.next best)).goto w (.cut (some list) best)) := by
        simp only [tick, place, List.concat_eq_append, List.getLast?_append,
          List.getLast?_singleton, Option.some_or]
      simp only [List.concat_eq_append, List.append_assoc, List.singleton_append] at listed once
      have apart := (List.nodup_cons.mp (List.nodup_middle.mp once)).1
      refine ⟨_, _, ticked, by omega, rfl, rfl,
        .cut (goto_pc ..) (aside.setNext (by simp) _ _) ?_ rfl first⟩
      simp only [List.concat_eq_append, List.append_assoc, List.singleton_append]
      refine listed.relink (fun early => apart (List.mem_append_left _ early)) listed.rest.2
        fun late => apart ?_
      exact List.mem_append_right _ (List.mem_cons_of_mem _ late)
  | @cut list best before after arrived place aside listed whole first =>
    subst whole
    have alone := (List.nodup_cons.mp (List.nodup_middle.mp once)).1
    have chosen : best ∈ before ++ best :: after := List.mem_append_right _ List.mem_cons_self
    have kept := aside.setNext chosen none
    cases list with
    | none =>
      have ticked : tick workers s w = some ((s.setNext best none).goto w (.start best)) := by
        simp only [tick, place]
      refine ⟨_, _, ticked, by omega, rfl, rfl,
        .start (goto_pc ..) aside.slot ?_ aside.apart rfl first⟩
      rw [linked_none.mp listed]
      exact (kept (.start best)).queue
    | some list =>
      have ticked : tick workers s w =
          some ((s.setNext best none).goto w (.tail (.best best) list list)) := by
        simp only [tick, place]
      obtain ⟨later, split, -⟩ := linked_some.mp listed
      refine ⟨_, _, ticked, ?_, rfl, rfl, @Ranked.tail _ _ _ _ _ _ _ _ [] later _ (goto_pc ..)
        (kept _) (listed.update alone) rfl first split.symm⟩
      have lengths := congrArg List.length split
      simp only [List.length_append, List.length_cons] at lengths ⊢
      omega
  | @tail list best p before after walked later arrived place aside listed whole first reached =>
    have link : s.next p = later.head? := (reached ▸ listed).rest.head_eq
    cases later with
    | nil =>
      have ticked : tick workers s w = some (s.goto w (.listHead (.best best) list p)) := by
        simp only [tick, place, link, List.head?_nil]
      have apart := (List.nodup_cons.mp (List.nodup_middle.mp (reached ▸ listed).nodup)).1
      refine ⟨_, _, ticked, by simp, rfl, rfl,
        .listHead (goto_pc ..) (aside.goto _) ?_ whole first reached⟩
      refine (reached ▸ listed).relink (fun early => apart (List.mem_append_left _ early))
        (linked_none.mpr rfl) List.not_mem_nil
    | cons q later =>
      have ticked : tick workers s w = some (s.goto w (.tail (.best best) list q)) := by
        simp only [tick, place, link, List.head?_cons]
      refine ⟨_, _, ticked, by simp, rfl, rfl, @Ranked.tail _ _ _ _ _ _ _ _ (walked ++ [p]) later _
        (goto_pc ..) (aside.goto _) listed whole first ?_⟩
      rw [← reached, List.append_assoc]
      rfl
  | @listHead list best p before after walked arrived place aside listed whole first reached =>
    have ticked : tick workers s w =
        some (s.goto w (.listLink (.best best) list p (s.localQ w))) := by
      simp only [tick, place, blockQueue]
    refine ⟨_, _, ticked, ?_, rfl, rfl,
      .listLink (goto_pc ..) (aside.goto _) listed whole first reached⟩
    rw [goto_localQ, if_pos rfl]
    omega
  | @listLink list best p h before after walked arrived place aside listed whole first reached =>
    have ticked : tick workers s w =
        some ((s.setNext p h).goto w (.listCas (.best best) list p h)) := by
      simp only [tick, place]
    have own : p ∈ tasks :=
      whole ▸ rest_inside (reached ▸ List.mem_append_right _ List.mem_cons_self)
    refine ⟨_, _, ticked, ?_, rfl, rfl, .listCas (goto_pc ..) (aside.setNext own _ _) ?_
      (update_self ..) whole first reached⟩
    · by_cases same : s.localQ w = h
      · simp [goto_localQ, setNext_localQ, same]
      · simp [goto_localQ, setNext_localQ, same]
    · rw [goto_next, setNext_next, update_idem]
      exact listed
  | @listCas list best p h before after walked arrived place aside listed link whole first
      reached =>
    by_cases same : s.localQ w = h
    · have ticked : tick workers s w = some ((s.setLocal w (some list)).goto w (.start best)) := by
        simp only [tick, place, blockQueue, same, if_true, afterBlock]
      have apart := (List.nodup_cons.mp (List.nodup_middle.mp listed.nodup)).1
      have own : p ∈ tasks :=
        whole ▸ rest_inside (reached ▸ List.mem_append_right _ List.mem_cons_self)
      refine ⟨_, _, ticked, ?_, rfl, rfl, .start (goto_pc ..) aside.slot ?_ aside.apart whole first⟩
      · rw [if_pos same]
        omega
      · have back := listed.relink (h := h) (m := arrived)
          (fun early => apart (List.mem_append_left _ early))
          ((same ▸ aside.queue).update fun member => aside.apart p member own)
          (fun member => aside.apart p member own)
        rw [update_idem, ← link, update_eq_self, List.append_cons] at back
        rw [goto_localQ, setLocal_self, ← reached]
        exact back
    · have ticked : tick workers s w = some (s.goto w (.listHead (.best best) list p)) := by
        simp only [tick, place, blockQueue, same, if_false]
      refine ⟨_, _, ticked, ?_, rfl, rfl,
        .listHead (goto_pc ..) (aside.goto _) listed whole first reached⟩
      rw [if_neg same]
      omega
  | start place =>
    rw [place] at choosing
    cases choosing

end Steps

inductive Plain (w : Nat) (tasks : List Nat) (s : Sys) : Nat → Prop where
  | next {queue : List Nat} (place : s.pc w = .next) (listed : Linked s.next (s.localQ w) queue)
      (whole : (s.runnext w).toList ++ queue = tasks) : Plain w tasks s 6
  | prio {f : Nat} {queue : List Nat} (place : s.pc w = .prio f) (slot : s.runnext w = none)
      (listed : Linked s.next (s.localQ w) queue) (whole : f :: queue = tasks) : Plain w tasks s 5
  | popBest {stolen : Bool} (place : s.pc w = .popBest stolen) (slot : s.runnext w = none)
      (listed : Linked s.next (s.localQ w) tasks) : Plain w tasks s 5
  | pop {stolen : Bool} (place : s.pc w = .pop (.own stolen)) (slot : s.runnext w = none)
      (listed : Linked s.next (s.localQ w) tasks) : Plain w tasks s 4
  | popNext {stolen : Bool} {f : Nat} {queue : List Nat}
      (place : s.pc w = .popNext (.own stolen) f) (slot : s.runnext w = none)
      (listed : Linked s.next (s.localQ w) tasks) (whole : f :: queue = tasks) : Plain w tasks s 3
  | popCas {stolen : Bool} {f : Nat} {queue : List Nat}
      (place : s.pc w = .popCas (.own stolen) f (s.next f)) (slot : s.runnext w = none)
      (listed : Linked s.next (s.localQ w) tasks) (whole : f :: queue = tasks) : Plain w tasks s 2
  | popClear {f : Nat} {queue : List Nat} (place : s.pc w = .popClear f) (slot : s.runnext w = none)
      (listed : Linked s.next (s.localQ w) queue) (whole : f :: queue = tasks) : Plain w tasks s 1
  | start {f : Nat} {queue : List Nat} (place : s.pc w = .start f) (slot : s.runnext w = none)
      (listed : Linked s.next (s.localQ w) queue) (whole : f :: queue = tasks) : Plain w tasks s 0

section Plain
variable {workers w : Nat} {tasks arrived arrived' : List Nat} {s s' : Sys} {n : Nat}

theorem Plain.meanwhile (plain : Plain w tasks s n)
    (meanwhile : Meanwhile w tasks s arrived s' arrived') :
    Plain w tasks s' n ∧ arrived' = arrived := by
  have links : ∀ {head : Option Nat} {l : List Nat}, Linked s.next head l → (∀ f ∈ l, f ∈ tasks) →
      Linked s'.next head l :=
    fun listed inside => listed.frame fun f member => meanwhile.links f (inside f member)
  have place := meanwhile.pc
  have slot := meanwhile.runnext
  cases plain with
  | next here listed whole =>
    obtain ⟨same, still⟩ := meanwhile.whole (by rw [here]; rfl)
    subst whole
    refine ⟨.next (place.trans here) ?_ (by rw [slot]), still⟩
    rw [same]
    exact links listed fun f member => List.mem_append_right _ member
  | prio here empty listed whole =>
    obtain ⟨same, still⟩ := meanwhile.whole (by rw [here]; rfl)
    subst whole
    refine ⟨.prio (place.trans here) (slot.trans empty) ?_ rfl, still⟩
    rw [same]
    exact links listed fun f member => List.mem_cons_of_mem _ member
  | popBest here empty listed =>
    obtain ⟨same, still⟩ := meanwhile.whole (by rw [here]; rfl)
    refine ⟨.popBest (place.trans here) (slot.trans empty) ?_, still⟩
    rw [same]
    exact links listed fun f member => member
  | pop here empty listed =>
    obtain ⟨same, still⟩ := meanwhile.whole (by rw [here]; rfl)
    refine ⟨.pop (place.trans here) (slot.trans empty) ?_, still⟩
    rw [same]
    exact links listed fun f member => member
  | popNext here empty listed whole =>
    obtain ⟨same, still⟩ := meanwhile.whole (by rw [here]; rfl)
    refine ⟨.popNext (place.trans here) (slot.trans empty) ?_ whole, still⟩
    rw [same]
    exact links listed fun f member => member
  | popCas here empty listed whole =>
    obtain ⟨same, still⟩ := meanwhile.whole (by rw [here]; rfl)
    rw [← meanwhile.links _ (whole ▸ List.mem_cons_self)] at here
    refine ⟨.popCas (place.trans here) (slot.trans empty) ?_ whole, still⟩
    rw [same]
    exact links listed fun f member => member
  | popClear here empty listed whole =>
    obtain ⟨same, still⟩ := meanwhile.whole (by rw [here]; rfl)
    subst whole
    refine ⟨.popClear (place.trans here) (slot.trans empty) ?_ rfl, still⟩
    rw [same]
    exact links listed fun f member => List.mem_cons_of_mem _ member
  | start here =>
    have finished := meanwhile.choosing
    rw [here] at finished
    cases finished

theorem Plain.own (plain : Plain w tasks s n) (unused : s.prioUsed = false)
    (occupied : tasks ≠ []) (once : tasks.Nodup) (choosing : isStart (s.pc w) = false) :
    ∃ s' n', tick workers s w = some s' ∧ n' < n ∧ s'.prio = s.prio ∧ s'.prioUsed = s.prioUsed ∧
      Plain w tasks s' n' := by
  cases plain with
  | next place listed whole =>
    cases slot : s.runnext w with
    | none =>
      have ticked : tick workers s w = some (s.goto w (.popBest false)) := by
        simp only [tick, place, slot]
      rw [slot] at whole
      exact ⟨_, _, ticked, by omega, rfl, rfl, .popBest (goto_pc ..) slot (whole ▸ listed)⟩
    | some f =>
      have ticked : tick workers s w =
          some ({ s with runnext := update s.runnext w none }.goto w (.prio f)) := by
        simp only [tick, place, slot]
      rw [slot] at whole
      exact ⟨_, _, ticked, by omega, rfl, rfl,
        .prio (goto_pc ..) (update_self ..) listed whole⟩
  | @prio f queue place slot listed whole =>
    have ticked : tick workers s w = some (s.goto w (.start f)) := by
      simp only [tick, place, unused, Bool.false_eq_true, if_false]
    exact ⟨_, _, ticked, by omega, rfl, rfl, .start (goto_pc ..) slot listed whole⟩
  | @popBest stolen place slot listed =>
    have ticked : tick workers s w = some (s.goto w (.pop (.own stolen))) := by
      simp only [tick, place, unused, Bool.false_eq_true, if_false]
    exact ⟨_, _, ticked, by omega, rfl, rfl, .pop (goto_pc ..) slot listed⟩
  | @pop stolen place slot listed =>
    obtain ⟨f, queue, rfl⟩ := List.exists_cons_of_ne_nil occupied
    have ticked : tick workers s w = some (s.goto w (.popNext (.own stolen) f)) := by
      simp only [tick, place, popHead, listed.head_eq, List.head?_cons]
    exact ⟨_, _, ticked, by omega, rfl, rfl, .popNext (goto_pc ..) slot listed rfl⟩
  | @popNext stolen f queue place slot listed whole =>
    have ticked : tick workers s w = some (s.goto w (.popCas (.own stolen) f (s.next f))) := by
      simp only [tick, place]
    exact ⟨_, _, ticked, by omega, rfl, rfl, .popCas (goto_pc ..) slot listed whole⟩
  | @popCas stolen f queue place slot listed whole =>
    subst whole
    have ticked : tick workers s w =
        some ((s.setLocal w (s.next f)).goto w (.popClear f)) := by
      simp only [tick, place, popHead, listed.head_eq, List.head?_cons, if_true, setPopHead]
    refine ⟨_, _, ticked, by omega, rfl, rfl, .popClear (goto_pc ..) slot ?_ rfl⟩
    rw [goto_localQ, setLocal_self]
    exact listed.2
  | @popClear f queue place slot listed whole =>
    subst whole
    have ticked : tick workers s w = some ((s.setNext f none).goto w (.start f)) := by
      simp only [tick, place]
    exact ⟨_, _, ticked, by omega, rfl, rfl,
      .start (goto_pc ..) slot (listed.update (List.nodup_cons.mp once).1) rfl⟩
  | start place =>
    rw [place] at choosing
    cases choosing

end Plain

def ranks : Event → Bool
  | .spawn _ _ priority | .setPriority _ _ priority => priority != 0
  | _ => false

section Choosing
variable {workers w : Nat} {tasks arrived arrived' : List Nat} {s s' : Sys} {n : Nat}

def Choosing (w : Nat) (tasks : List Nat) (used : Bool) (s : Sys) (arrived : List Nat)
    (n : Nat) : Prop :=
  if used then Ranked w tasks s arrived n else Plain w tasks s n ∧ arrived = []

section
variable (chooses : Choosing w tasks s.prioUsed s arrived n)
include chooses

theorem Choosing.own (occupied : tasks ≠ [])
    (once : tasks.Nodup) (choosing : isStart (s.pc w) = false) :
    ∃ s' n', tick workers s w = some s' ∧ n' < n ∧ s'.prio = s.prio ∧ s'.prioUsed = s.prioUsed ∧
      Choosing w tasks s'.prioUsed s' arrived n' := by
  unfold Choosing at chooses ⊢
  cases used : s.prioUsed with
  | true =>
    rw [used, if_pos rfl] at chooses
    obtain ⟨s', n', ticked, less, prio, same, later⟩ := chooses.own used occupied once choosing
    refine ⟨s', n', ticked, less, prio, same.trans used, ?_⟩
    rw [same.trans used, if_pos rfl]
    exact later
  | false =>
    rw [used, if_neg Bool.false_ne_true] at chooses
    obtain ⟨s', n', ticked, less, prio, same, later⟩ := chooses.1.own used occupied once choosing
    refine ⟨s', n', ticked, less, prio, same.trans used, ?_⟩
    rw [same.trans used, if_neg Bool.false_ne_true]
    exact ⟨later, chooses.2⟩

theorem Choosing.meanwhile (meanwhile : Meanwhile w tasks s arrived s' arrived') :
    ∃ n', Choosing w tasks s'.prioUsed s' arrived' n' := by
  unfold Choosing at chooses ⊢
  rw [meanwhile.prioUsed]
  split at chooses
  · obtain ⟨n', later⟩ := chooses.meanwhile meanwhile
    exact ⟨n', by rwa [if_pos ‹_›]⟩
  · obtain ⟨later, same⟩ := chooses.1.meanwhile meanwhile
    exact ⟨n, by rw [if_neg ‹_›]; exact ⟨later, same.trans chooses.2⟩⟩

theorem Choosing.ends (occupied : tasks ≠ []) (once : tasks.Nodup) :
    ∃ k s', ownSteps workers w k s = some s' ∧ isStart (s'.pc w) = true := by
  induction n using Nat.strongRecOn generalizing s with
  | ind n ih =>
    cases choosing : isStart (s.pc w) with
    | true => exact ⟨0, s, rfl, choosing⟩
    | false =>
      obtain ⟨mid, n', ticked, less, -, -, later⟩ := chooses.own occupied once choosing
      obtain ⟨k, s', rest, finished⟩ := ih n' less later
      refine ⟨k + 1, s', ?_, finished⟩
      rw [ownSteps, ticked]
      exact rest

end

theorem Choice.keeps (choice : Choice workers w tasks s arrived s' arrived')
    (chooses : Choosing w tasks s.prioUsed s arrived n) (occupied : tasks ≠ [])
    (once : tasks.Nodup) :
    (∃ n', Choosing w tasks s'.prioUsed s' arrived' n') ∧ s'.prioUsed = s.prioUsed ∧
      ∀ f ∈ tasks, s'.prio f = s.prio f := by
  induction choice generalizing n with
  | refl s arrived => exact ⟨⟨n, chooses⟩, rfl, fun _ _ => rfl⟩
  | own choosing ticked rest ih =>
    obtain ⟨mid, n', ticked', -, prio, used, later⟩ := chooses.own occupied once choosing
    cases ticked.symm.trans ticked'
    obtain ⟨still, used', prio'⟩ := ih later
    exact ⟨still, used'.trans used, fun f member => by rw [prio' f member, prio]⟩
  | other meanwhile rest ih =>
    obtain ⟨n', later⟩ := chooses.meanwhile meanwhile
    obtain ⟨still, used', prio'⟩ := ih later
    exact ⟨still, used'.trans meanwhile.prioUsed,
      fun f member => (prio' f member).trans (meanwhile.priorities f member)⟩

end Choosing

theorem goto_prioUsed (s : Sys) (w : Nat) (pc : Pc) : (s.goto w pc).prioUsed = s.prioUsed := rfl

theorem setPushHead_prioUsed (s : Sys) (t : Nat) (q : Push) (h : Option Nat) :
    (setPushHead s t q h).prioUsed = s.prioUsed := by
  cases q <;> rfl

theorem setPopHead_prioUsed (s : Sys) (t : Nat) (q : Pop) (h : Option Nat) :
    (setPopHead s t q h).prioUsed = s.prioUsed := by
  cases q <;> rfl

variable {workers : Nat} {s s' : Sys}

theorem tick_prioUsed {t : Nat} (ticked : tick workers s t = some s') :
    s'.prioUsed = s.prioUsed := by
  unfold tick at ticked
  split at ticked
  case h_13 | h_19 =>
    cases ticked
    split <;> simp only [goto_prioUsed, setPushHead_prioUsed, setPopHead_prioUsed]
  case h_35 | h_36 =>
    obtain ⟨p, -, rfl⟩ := Option.map_eq_some_iff.mp ticked
    rfl
  case h_14 | h_32 | h_43 | h_47 | h_54 =>
    repeat' split at ticked
    all_goals cases ticked <;> rfl
  case h_58 =>
    split at ticked
    · cases ticked
      split <;> rfl
    · cases ticked
      rfl
  all_goals cases ticked
  all_goals first
    | rfl
    | split <;> rfl

theorem step_prioUsed {e : Event}
    (stepped : step workers s e = some s') : s'.prioUsed = (s.prioUsed || ranks e) := by
  cases e with
  | tick t => simpa [ranks] using tick_prioUsed stepped
  | enlist w =>
    simp only [step] at stepped
    split at stepped
    · obtain ⟨f, -, rfl⟩ := Option.map_eq_some_iff.mp stepped
      simp [ranks]
    · cases stepped
  | park w | parkUntil w deadline =>
    simp only [step] at stepped
    split at stepped
    · obtain ⟨f, -, rfl⟩ := Option.map_eq_some_iff.mp stepped
      simp [ranks, goto_prioUsed]
    · cases stepped
  | _ =>
    simp only [step] at stepped
    repeat' split at stepped
    all_goals cases stepped
    all_goals simp [ranks, goto_prioUsed]

theorem run_prioUsed {es : List Event} (h : run (step workers) s es = some s') :
    s'.prioUsed = true ↔ s.prioUsed = true ∨ ∃ e ∈ es, ranks e = true := by
  induction es generalizing s with
  | nil =>
    cases h
    simp
  | cons e es ih =>
    obtain ⟨mid, stepped, rest⟩ := run_cons_iff.mp h
    rw [ih rest, step_prioUsed stepped, Bool.or_eq_true, or_assoc]
    simp

/-- The call of rt_next_runnable, or any moment from the end of the fold until the list is
    detached. -/
def Begins (w : Nat) (s : Sys) : Prop :=
  s.pc w = .next ∨ s.runnext w = none ∧
    ∃ stolen, s.pc w = .popBest stolen ∨ s.pc w = .detach stolen ∧ s.prioUsed = true

theorem choosing_starts {w : Nat} {queue : List Nat} (begins : Begins w s)
    (listed : Linked s.next (s.localQ w) queue) :
    ∃ n, Choosing w ((s.runnext w).toList ++ queue) s.prioUsed s [] n := by
  unfold Choosing
  rcases begins with first | ⟨slot, stolen, second | ⟨third, used⟩⟩
  · cases used : s.prioUsed with
    | true => exact ⟨_, .next first listed rfl⟩
    | false => exact ⟨_, .next first listed rfl, rfl⟩
  · rw [slot]
    cases used : s.prioUsed with
    | true => exact ⟨_, .popBest second slot listed⟩
    | false => exact ⟨_, .popBest second slot listed, rfl⟩
  · rw [slot, used]
    exact ⟨_, .detach third slot listed⟩

theorem Choosing.started {w f : Nat} {tasks arrived : List Nat} {n : Nat} {used : Bool}
    (chooses : Choosing w tasks used s arrived n) (here : s.pc w = .start f) (once : tasks.Nodup) :
    ∃ before after, tasks = before ++ f :: after ∧
      (if used then FirstMax s.prio before f after else before = []) ∧
      s.runnext w = none ∧ Linked s.next (s.localQ w) (before ++ after ++ arrived) ∧
      (f :: (before ++ after ++ arrived)).Nodup := by
  unfold Choosing at chooses
  cases used with
  | true =>
    rw [if_pos rfl] at chooses
    cases chooses
    case start g before after place slot whole first listed apart =>
      cases place.symm.trans here
      refine ⟨before, after, whole.symm, first, slot, listed,
        List.nodup_cons.mpr ⟨fun again => ?_, listed.nodup⟩⟩
      subst whole
      rcases List.mem_append.mp again with left | late
      · exact (List.nodup_cons.mp (List.nodup_middle.mp once)).1 left
      · exact apart f late (List.mem_append_right _ List.mem_cons_self)
    all_goals simp_all only [reduceCtorEq]
  | false =>
    rw [if_neg Bool.false_ne_true] at chooses
    obtain ⟨plain, rfl⟩ := chooses
    cases plain
    case start g queue place slot listed whole =>
      cases place.symm.trans here
      subst whole
      refine ⟨[], queue, rfl, rfl, slot, ?_⟩
      simp only [List.nil_append, List.append_nil]
      exact ⟨listed, once⟩
    all_goals simp_all only [reduceCtorEq]

/-- A task of the highest priority is started, the newest of them, and the others keep their
    order in front of what has arrived; without a priority it is the newest of all. -/
theorem next_runnable_highest_newest (workers w : Nat) (s : Sys) (queue : List Nat)
    (begins : Begins w s)
    (listed : Linked s.next (s.localQ w) queue) (apart : ∀ f, s.runnext w = some f → f ∉ queue)
    (occupied : (s.runnext w).toList ++ queue ≠ []) :
    (∃ n s' f, ownSteps workers w n s = some s' ∧ s'.pc w = .start f) ∧
      (∀ s' arrived f,
        Choice workers w ((s.runnext w).toList ++ queue) s [] s' arrived → s'.pc w = .start f →
        ∃ before after, (s.runnext w).toList ++ queue = before ++ f :: after ∧
          (if s.prioUsed then FirstMax s.prio before f after else before = []) ∧
          s'.runnext w = none ∧ Linked s'.next (s'.localQ w) (before ++ after ++ arrived) ∧
          (f :: (before ++ after ++ arrived)).Nodup) ∧
      ∀ es, run (step workers) (Sys.init workers) es = some s →
        (s.prioUsed = true ↔ ∃ e ∈ es, ranks e = true) := by
  have once : ((s.runnext w).toList ++ queue).Nodup := by
    refine List.nodup_append.mpr ⟨?_, listed.nodup, ?_⟩
    · cases s.runnext w <;> simp
    · rintro f held g queued rfl
      exact apart f (Option.mem_toList.mp held) queued
  obtain ⟨n, chooses⟩ := choosing_starts begins listed
  refine ⟨?_, fun s' arrived f choice here => ?_, fun es ran => ?_⟩
  · obtain ⟨k, s', ran, finished⟩ := @Choosing.ends workers _ _ _ _ _ chooses occupied once
    cases place : s'.pc w with
    | start f => exact ⟨k, s', f, ran, place⟩
    | _ =>
      rw [place] at finished
      cases finished
  · obtain ⟨⟨n', later⟩, used, prio⟩ := choice.keeps chooses occupied once
    obtain ⟨before, after, split, best, slot, listed', once'⟩ := later.started here once
    refine ⟨before, after, split, ?_, slot, listed', once'⟩
    rw [used] at best
    cases ranked : s.prioUsed with
    | true =>
      rw [ranked, if_pos rfl] at best
      rw [if_pos rfl]
      exact best.congr fun g member => (prio g (split ▸ member)).symm
    | false =>
      rw [ranked] at best
      exact best
  · rw [run_prioUsed ran]
    simp [Sys.init]

def threeReady : Sys :=
  { Sys.init 1 with
    localQ := fun _ => some 6
    next := fun f => if f = 6 then some 7 else none
    runnext := fun _ => some 5
    prio := fun f => if f = 5 then 1 else 3
    prioUsed := true
    pc := fun _ => .next }

theorem three_ready_chosen :
    (∃ n s' f, ownSteps 1 0 n threeReady = some s' ∧ s'.pc 0 = .start f) ∧
      ∀ s' arrived f, Choice 1 0 [5, 6, 7] threeReady [] s' arrived → s'.pc 0 = .start f →
        f = 6 ∧ Linked s'.next (s'.localQ 0) (5 :: 7 :: arrived) := by
  have chosen := next_runnable_highest_newest 1 0 threeReady [6, 7] (.inl rfl)
    (by simp [Linked, threeReady]) (by simp [threeReady]) (by simp)
  refine ⟨chosen.1, fun s' arrived f choice here => ?_⟩
  obtain ⟨before, after, split, first, -, listed, -⟩ := chosen.2.1 s' arrived f choice here
  obtain ⟨least, most⟩ : FirstMax threeReady.prio before f after := first
  have three : [5, 6, 7] = before ++ f :: after := split
  rcases before with _ | ⟨a, _ | ⟨b, _ | ⟨c, more⟩⟩⟩
  · obtain ⟨rfl, rfl⟩ := List.cons.inj three
    exact absurd (most 6 (by simp)) (by simp [threeReady])
  · simp only [List.cons_append, List.nil_append, List.cons.injEq] at three
    obtain ⟨rfl, rfl, rfl⟩ := three
    exact ⟨rfl, listed⟩
  · simp only [List.cons_append, List.nil_append, List.cons.injEq] at three
    obtain ⟨rfl, rfl, rfl, rfl⟩ := three
    exact absurd (least 6 (by simp)) (by simp [threeReady])
  · have lengths := congrArg List.length three
    simp at lengths

end PliNextRunnable

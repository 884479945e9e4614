import PliLlvm.Compiler.StaticLinks

/- Runs of a program with internal procedures. An activation belongs to the activation of the
   enclosing procedure in which its procedure's name was looked up; the invariant is that the
   links an activation holds are the addresses in those. -/
namespace PliStaticLinks
open Program

section Names
variable {prog : Program}

def WellScoped (prog : Program) : Symbol → Prop
  | .based _ owner base | .defined _ owner base =>
      base.owner ∈ prog.ancestors owner ∧ WellScoped prog base
  | _ => True

structure Compiled (prog : Program) : Prop where
  basesOutward : ∀ p, ∀ s ∈ prog.noted p, WellScoped prog s
  visible : ∀ p, ∀ call ∈ prog.calls p, ∀ m, prog.parent call.1 = some m → m ∈ prog.ancestors p
  callees : ∀ p, ∀ call ∈ prog.calls p,
    call.1 < prog.procs.length ∧ prog.isPackage call.1 = false
  generated : compiles prog = true

structure FromOutside (prog : Program) (p : Nat) (s : Symbol) : Prop where
  above : s.owner ∈ prog.ancestors p
  other : s.owner ≠ p
  procedure : prog.isPackage s.owner = false
  basesOutward : WellScoped prog s

theorem noted_one {p : Nat} {uses : List Symbol} {s t : Symbol} (outward : WellScoped prog s)
    (member : t ∈ if s.owner ≠ p && prog.isDescendantOf p s.owner && !prog.isPackage s.owner then
      addEnv uses s else uses) : t ∈ uses ∨ FromOutside prog p t := by
  split at member
  · rename_i noted
    simp only [Bool.and_eq_true, decide_eq_true_eq, Bool.not_eq_true', isDescendantOf] at noted
    obtain ⟨⟨other, above⟩, procedure⟩ := noted
    rcases mem_addEnv.mp member with old | rfl
    · exact Or.inl old
    · exact Or.inr ⟨above, other, procedure, outward⟩
  · exact Or.inl member

theorem noteStaticUse_mem {p : Nat} {uses : List Symbol} {s t : Symbol}
    (member : t ∈ prog.noteStaticUse p uses s) (outward : WellScoped prog s) :
    t ∈ uses ∨ FromOutside prog p t := by
  induction s generalizing uses with
  | plain id owner | ofStatic id owner | controlled id owner | bareBased id owner =>
    exact noted_one outward member
  | based id owner base ih | defined id owner base ih =>
    rcases ih member outward.2 with noted | outside
    · exact noted_one outward noted
    · exact Or.inr outside

theorem directUses_outside (compiled : Compiled prog) {p : Nat} {s : Symbol}
    (member : s ∈ prog.directUses p) : FromOutside prog p s := by
  have all : ∀ (l uses : List Symbol), (∀ t ∈ l, WellScoped prog t) →
      s ∈ l.foldl (prog.noteStaticUse p) uses → s ∈ uses ∨ FromOutside prog p s := by
    intro l
    induction l with
    | nil => exact fun uses _ inside => Or.inl inside
    | cons t l ih =>
      intro uses outward inside
      rcases ih _ (fun t h => outward t (List.mem_cons_of_mem _ h)) inside with noted | outside
      · exact noteStaticUse_mem noted (outward t List.mem_cons_self)
      · exact Or.inr outside
  rcases all _ [] (compiled.basesOutward p) member with none | outside
  · cases none
  · exact outside

theorem env_outside (compiled : Compiled prog) (p : Nat) (s : Symbol)
    (member : s ∈ prog.computeEnv p) : FromOutside prog p s := by
  induction size : prog.procs.length - p using Nat.strongRecOn generalizing p with
  | ind n ih =>
    rcases mem_computeEnv.mp member with direct | ⟨q, child, inner, above⟩
    · exact directUses_outside compiled direct
    · obtain ⟨bound, up⟩ := prog.mem_children child
      have later := prog.earlier q p up
      have outside := ih (prog.procs.length - q) (by omega) q inner rfl
      have higher := outside.above
      rw [ancestors_parent up] at higher
      refine ⟨?_, above, outside.procedure, outside.basesOutward⟩
      rcases List.mem_cons.mp higher with own | higher
      · exact absurd own outside.other
      · exact higher

theorem env_top (compiled : Compiled prog) {q : Nat}
    (top : ∀ m, prog.parent q = some m → prog.isPackage m = true) : prog.computeEnv q = [] := by
  rw [List.eq_nil_iff_forall_not_mem]
  intro s member
  have outside := env_outside compiled q s member
  have above := outside.above
  cases up : prog.parent q with
  | none =>
    rw [ancestors_top up] at above
    exact outside.other (List.mem_singleton.mp above)
  | some m =>
    have package := top m up
    have alone : prog.parent m = none := by
      unfold isPackage at package
      cases found : prog.procs[m]? with
      | none => simp [found] at package
      | some info =>
        have flag : info.isPackage = true := by simpa [found] using package
        have noParent := prog.packages m info found flag
        simp [Program.parent, parentOf, found, noParent]
    rw [ancestors_parent up, ancestors_top alone] at above
    rcases List.mem_cons.mp above with own | outer
    · exact outside.other own
    · have procedure := outside.procedure
      rw [List.mem_singleton.mp outer, package] at procedure
      cases procedure

end Names

/-- `b` belongs to `a`, or to what `a` belongs to. -/
def Enclosing (acts : List Activation) : Nat → Nat → Prop :=
  Relation.ReflTransGen fun a b => (acts[a]?).bind (·.lexical) = some b

/-- The address a symbol has in an activation: a variable is the one in the activation of its
    owner that encloses it. -/
inductive Denotes (acts : List Activation) (a : Nat) : Symbol → Addr → Prop where
  | plain {id owner b : Nat} {act : Activation} (encloses : Enclosing acts a b)
      (there : acts[b]? = some act) (own : act.proc = owner) :
      Denotes acts a (.plain id owner) (.frame b (.plain id owner))
  | ofStatic (id owner : Nat) : Denotes acts a (.ofStatic id owner) (.global (.ofStatic id owner))
  | controlled (id owner : Nat) :
      Denotes acts a (.controlled id owner) (.generation (.controlled id owner))
  | bareBased (id owner : Nat) : Denotes acts a (.bareBased id owner) .null
  | based {base : Symbol} {addr : Addr} (id owner : Nat) (pointer : Denotes acts a base addr) :
      Denotes acts a (.based id owner base) (.deref addr)
  | defined {base : Symbol} {addr : Addr} (id owner : Nat) (whole : Denotes acts a base addr) :
      Denotes acts a (.defined id owner base) (.within addr (.defined id owner base))

/-- The activation a procedure called from `a` belongs to. -/
def LexicalParent (prog : Program) (acts : List Activation) (a q : Nat) (lexical : Option Nat) :
    Prop :=
  match prog.parent q with
  | none => lexical = none
  | some m =>
      (∃ b act, lexical = some b ∧ Enclosing acts a b ∧ acts[b]? = some act ∧ act.proc = m) ∨
        (lexical = none ∧ ∀ b act, Enclosing acts a b → acts[b]? = some act → act.proc ≠ m)

/-- One more activation: of a procedure entered from outside, of one called by name in the code of
    any activation, at any of its entry points, or of one called through an entry value or from
    an ON unit, which may have no links. -/
inductive Step (prog : Program) : List Activation → List Activation → Prop where
  | outside {acts : List Activation} {q : Nat} {info : ProcInfo} (entry given : Nat)
      (found : prog.procs[q]? = some info) (procedure : prog.isPackage q = false)
      (top : ∀ m, prog.parent q = some m → prog.isPackage m = true) :
      Step prog acts (acts ++ [⟨q, none,
        receivedLinks info entry given (prog.computeEnv q).length []⟩])
  | call {acts : List Activation} {a q entry : Nat} {act : Activation} {info : ProcInfo}
      {lexical : Option Nat} (given : Nat) (here : acts[a]? = some act)
      (site : (q, entry) ∈ prog.calls act.proc) (found : prog.procs[q]? = some info)
      (belongs : LexicalParent prog acts a q lexical) :
      Step prog acts (acts ++ [⟨q, lexical,
        receivedLinks info entry given (prog.computeEnv q).length
          (appendStaticLinks prog act a q)⟩])
  | value {acts : List Activation} {q : Nat} {info : ProcInfo} {lexical : Option Nat}
      (entry given : Nat) (found : prog.procs[q]? = some info)
      (procedure : prog.isPackage q = false) (noLinks : prog.computeEnv q = [])
      (belongs : ∀ b, lexical = some b →
        ∃ act, acts[b]? = some act ∧ prog.parent q = some act.proc) :
      Step prog acts (acts ++ [⟨q, lexical,
        receivedLinks info entry given (prog.computeEnv q).length []⟩])

def Reachable (prog : Program) (acts : List Activation) : Prop :=
  Relation.ReflTransGen (Step prog) [] acts

section Arguments

theorem argLinks_links (links : List Addr) : argLinks (links.map .link) = links := by
  induction links with
  | nil => rfl
  | cons addr links ih => exact congrArg (addr :: ·) ih

theorem callArgs_front (e : EntryPoint) (given : Nat) (links : List Addr) :
    ∃ front, callArgs e given links = front ++ links.map .link ∧
      front.length = firstLink e := by
  refine ⟨_, rfl, ?_⟩
  cases sret : e.sret <;>
    simp only [sret, List.length_append, List.length_map, List.length_range, List.length_replicate,
      List.length_cons, List.length_nil, firstLink, if_true, Bool.false_eq_true, if_false] <;>
    omega

theorem bindLinks_front (front : List Arg) (links : List Addr) (after : List Arg) :
    bindLinks front.length links.length (front ++ links.map .link ++ after) = links := by
  rw [bindLinks, List.append_assoc, List.drop_left]
  have size : links.length = (links.map Arg.link).length := by simp
  rw [size, List.take_left, argLinks_links]

theorem receivedLinks_eq (info : ProcInfo) (entry given : Nat) (links : List Addr) :
    receivedLinks info entry given links.length links = links := by
  have own : bindLinks (firstLink (info.entryPoint entry)) links.length
      (callArgs (info.entryPoint entry) given links) = links := by
    obtain ⟨front, args, size⟩ := callArgs_front (info.entryPoint entry) given links
    rw [args, ← size]
    simpa using bindLinks_front front links []
  unfold receivedLinks
  simp only [own]
  split
  · rfl
  · have size : implFirstLink info =
        (info.union.map (fun u => if u ∈ (info.entryPoint entry).params then Arg.actual 0
            else .undef) ++
          (info.union.filter (·.adjustable)).map
            (fun u => if u ∈ (info.entryPoint entry).params then Arg.extent u
              else .undef)).length := by
      simp [implFirstLink]
    rw [size]
    exact bindLinks_front _ links _

end Arguments

/-- Each activation's links are the addresses its code would find without them, and it belongs to
    an earlier activation of the enclosing procedure. -/
structure Linked (prog : Program) (acts : List Activation) (a : Nat) (act : Activation) :
    Prop where
  procedure : act.proc < prog.procs.length ∧ prog.isPackage act.proc = false
  count : act.links.length = (prog.computeEnv act.proc).length
  links : ∀ s addr, (s, addr) ∈ (prog.computeEnv act.proc).zip act.links →
    Denotes acts a s addr
  lexical : ∀ b, act.lexical = some b →
    b < a ∧ ∃ outer, acts[b]? = some outer ∧ prog.parent act.proc = some outer.proc

def AllLinked (prog : Program) (acts : List Activation) : Prop :=
  ∀ a act, acts[a]? = some act → Linked prog acts a act

section Chains
variable {prog : Program} {acts : List Activation}

variable {a : Nat}

theorem lexical_some {b : Nat} (link : (acts[a]?).bind (·.lexical) = some b) :
    ∃ act, acts[a]? = some act ∧ act.lexical = some b := Option.bind_eq_some_iff.mp link

theorem enclosing_proc (all : AllLinked prog acts) {a b : Nat} (encloses : Enclosing acts a b)
    {act outer : Activation} (here : acts[a]? = some act) (there : acts[b]? = some outer) :
    outer.proc ∈ prog.ancestors act.proc ∧ b ≤ a ∧ (outer.proc = act.proc → b = a) := by
  induction encloses using Relation.ReflTransGen.head_induction_on generalizing act with
  | refl =>
    rw [here] at there
    cases there
    exact ⟨self_ancestor _, Nat.le_refl _, fun _ => rfl⟩
  | head link rest ih =>
    rename_i a c
    obtain ⟨act', here', lexical⟩ := lexical_some link
    rw [here] at here'
    cases here'
    obtain ⟨before, middle, atMiddle, up⟩ := (all a act here).lexical c lexical
    obtain ⟨above, earlier, _⟩ := ih atMiddle
    refine ⟨?_, by omega, fun same => ?_⟩
    · rw [ancestors_parent up]
      exact List.mem_cons_of_mem _ above
    · have lower := ancestor_le above
      have strict := prog.earlier _ _ up
      omega

theorem enclosing_through (all : AllLinked prog acts) {a b m : Nat}
    (encloses : Enclosing acts a b) {act outer : Activation} (here : acts[a]? = some act)
    (there : acts[b]? = some outer) (below : m ∈ prog.ancestors act.proc)
    (above : outer.proc ∈ prog.ancestors m) :
    ∃ c middle, Enclosing acts a c ∧ acts[c]? = some middle ∧ middle.proc = m ∧
      Enclosing acts c b := by
  induction encloses using Relation.ReflTransGen.head_induction_on generalizing act with
  | refl =>
    rw [here] at there
    cases there
    have same : outer.proc = m := Nat.le_antisymm (ancestor_le above) (ancestor_le below)
    exact ⟨_, outer, Relation.ReflTransGen.refl, here, same, Relation.ReflTransGen.refl⟩
  | head link rest ih =>
    rename_i a c
    obtain ⟨act', here', lexical⟩ := lexical_some link
    rw [here] at here'
    cases here'
    obtain ⟨_, middle, atMiddle, up⟩ := (all a act here).lexical c lexical
    rw [ancestors_parent up] at below
    rcases List.mem_cons.mp below with own | higher
    · exact ⟨a, act, Relation.ReflTransGen.refl, here, own.symm,
        Relation.ReflTransGen.head link rest⟩
    · obtain ⟨d, found, toFound, atFound, same, onward⟩ := ih atMiddle higher
      exact ⟨d, found, Relation.ReflTransGen.head link toFound, atFound, same, onward⟩

theorem enclosing_unique (all : AllLinked prog acts) {a b c : Nat} (toB : Enclosing acts a b)
    (toC : Enclosing acts a c) {atB atC : Activation} (thereB : acts[b]? = some atB)
    (thereC : acts[c]? = some atC) (same : atB.proc = atC.proc) : b = c := by
  have unique : Relator.RightUnique fun a b : Nat => (acts[a]?).bind (·.lexical) = some b := by
    intro a b c toB toC
    exact Option.some.inj (toB.symm.trans toC)
  rcases Relation.ReflTransGen.total_of_right_unique unique toB toC with between | between
  · exact ((enclosing_proc all between thereB thereC).2.2 same.symm).symm
  · exact (enclosing_proc all between thereC thereB).2.2 same

theorem denotes_unique (all : AllLinked prog acts) {a : Nat} {s : Symbol} {addr addr' : Addr}
    (first : Denotes acts a s addr) (second : Denotes acts a s addr') : addr = addr' := by
  induction first generalizing addr' with
  | plain encloses there own =>
    cases second with
    | plain encloses' there' own' =>
      rw [enclosing_unique all encloses encloses' there there' (own.trans own'.symm)]
  | ofStatic | controlled | bareBased => cases second; rfl
  | based id owner pointer ih =>
    cases second with
    | based _ _ pointer' => rw [ih pointer']
  | defined id owner whole ih =>
    cases second with
    | defined _ _ whole' => rw [ih whole']

variable {act : Activation}

theorem linkOf_some (linked : Linked prog acts a act) {s : Symbol}
    (member : s ∈ prog.computeEnv act.proc) :
    ∃ addr, linkOf prog act s = some addr ∧ Denotes acts a s addr := by
  have count := linked.count
  have links := linked.links
  unfold linkOf
  generalize prog.computeEnv act.proc = env at *
  generalize act.links = addrs at *
  induction env generalizing addrs with
  | nil => cases member
  | cons t env ih =>
    cases addrs with
    | nil => cases count
    | cons addr addrs =>
      rw [List.zip_cons_cons, List.lookup_cons]
      by_cases same : s = t
      · subst same
        exact ⟨addr, by simp, links s addr (by simp)⟩
      · have later : s ∈ env := by
          rcases List.mem_cons.mp member with here | later
          · exact absurd here same
          · exact later
        have quick : (s == t) = false := beq_false_of_ne same
        rw [quick]
        exact ih later addrs (Nat.succ.inj count) fun s addr inside =>
          links s addr (List.mem_cons_of_mem _ inside)

theorem linkOf_none {s : Symbol} (absent : s ∉ prog.computeEnv act.proc) :
    linkOf prog act s = none := by
  rw [linkOf, List.lookup_eq_none_iff]
  rintro ⟨t, addr⟩ member
  have inside := (List.of_mem_zip member).1
  have apart : s ≠ t := by
    rintro rfl
    exact absent inside
  simpa using apart

theorem addressOf_denotes (here : acts[a]? = some act)
    (linked : Linked prog acts a act) (s : Symbol) (ok : addressable prog act.proc s = true) :
    ∃ addr, addressOf prog act a s = some addr ∧ Denotes acts a s addr := by
  induction s with
  | plain id owner =>
    by_cases member : Symbol.plain id owner ∈ prog.computeEnv act.proc
    · obtain ⟨addr, link, denotes⟩ := linkOf_some linked member
      exact ⟨addr, by simp [addressOf, link], denotes⟩
    · have own : owner = act.proc := by simpa [addressable, member] using ok
      have used : addressOf prog act a (.plain id owner) = some (.frame a (.plain id owner)) := by
        rw [addressOf, linkOf_none member, if_pos own]
        rfl
      exact ⟨_, used, .plain Relation.ReflTransGen.refl here own.symm⟩
  | ofStatic id owner =>
    by_cases member : Symbol.ofStatic id owner ∈ prog.computeEnv act.proc
    · obtain ⟨addr, link, denotes⟩ := linkOf_some linked member
      exact ⟨addr, by simp [addressOf, link], denotes⟩
    · exact ⟨_, by simp [addressOf, linkOf_none member], .ofStatic id owner⟩
  | controlled id owner => exact ⟨_, rfl, .controlled id owner⟩
  | bareBased id owner =>
    have member : Symbol.bareBased id owner ∈ prog.computeEnv act.proc := by
      simpa [addressable] using ok
    obtain ⟨addr, link, denotes⟩ := linkOf_some linked member
    exact ⟨addr, link, denotes⟩
  | based id owner base ih =>
    obtain ⟨addr, used, denotes⟩ := ih ok
    exact ⟨.deref addr, by simp [addressOf, used], .based id owner denotes⟩
  | defined id owner base ih =>
    obtain ⟨addr, used, denotes⟩ := ih ok
    exact ⟨_, by simp [addressOf, used], .defined id owner denotes⟩

theorem enclosing_more {b : Nat} (more : List Activation) (encloses : Enclosing acts a b) :
    Enclosing (acts ++ more) a b := by
  refine Relation.ReflTransGen.mono ?_ a b encloses
  intro a b link
  obtain ⟨act, here, lexical⟩ := lexical_some link
  rw [List.getElem?_append_left (List.getElem?_eq_some_iff.mp here).1, here]
  exact lexical

theorem here_more (more : List Activation)
    (here : acts[a]? = some act) : (acts ++ more)[a]? = some act := by
  rw [List.getElem?_append_left (List.getElem?_eq_some_iff.mp here).1, here]

theorem denotes_more {s : Symbol} {addr : Addr} (more : List Activation)
    (denotes : Denotes acts a s addr) : Denotes (acts ++ more) a s addr := by
  induction denotes with
  | plain encloses there own =>
    exact .plain (enclosing_more more encloses) (here_more more there) own
  | ofStatic id owner => exact .ofStatic id owner
  | controlled id owner => exact .controlled id owner
  | bareBased id owner => exact .bareBased id owner
  | based id owner _ ih => exact .based id owner ih
  | defined id owner _ ih => exact .defined id owner ih

theorem linked_more (more : List Activation)
    (linked : Linked prog acts a act) : Linked prog (acts ++ more) a act := by
  refine ⟨linked.procedure, linked.count, fun s addr member => ?_, fun b lexical => ?_⟩
  · exact denotes_more more (linked.links s addr member)
  · obtain ⟨before, outer, there, up⟩ := linked.lexical b lexical
    exact ⟨before, outer, here_more more there, up⟩

theorem allLinked_more (all : AllLinked prog acts) {act : Activation}
    (new : Linked prog (acts ++ [act]) acts.length act) : AllLinked prog (acts ++ [act]) := by
  intro a act' here
  rcases Nat.lt_or_ge a acts.length with old | last
  · rw [List.getElem?_append_left old] at here
    exact linked_more [act] (all a act' here)
  · rw [List.getElem?_append_right last] at here
    obtain ⟨bound, rfl⟩ := List.getElem?_eq_some_iff.mp here
    have same : a = acts.length := by
      simp only [List.length_singleton] at bound
      omega
    subst same
    simpa using new

theorem linked_alone (procedure : act.proc < prog.procs.length ∧
      prog.isPackage act.proc = false)
    (noLinks : prog.computeEnv act.proc = []) (none : act.links = [])
    (belongs : ∀ b, act.lexical = some b →
      ∃ outer, acts[b]? = some outer ∧ prog.parent act.proc = some outer.proc) :
    Linked prog (acts ++ [act]) acts.length act := by
  refine ⟨procedure, by simp [noLinks, none], ?_, fun b lexical => ?_⟩
  · intro s addr member
    rw [noLinks] at member
    cases member
  · obtain ⟨outer, there, up⟩ := belongs b lexical
    exact ⟨(List.getElem?_eq_some_iff.mp there).1, outer, here_more _ there, up⟩

theorem denotes_callee (all : AllLinked prog acts) {a q m : Nat} {act : Activation}
    {lexical : Option Nat} (here : acts[a]? = some act) (up : prog.parent q = some m)
    (below : m ∈ prog.ancestors act.proc) (belongs : LexicalParent prog acts a q lexical)
    (links : List Addr) {s : Symbol} {addr : Addr} (denotes : Denotes acts a s addr)
    (above : s.owner ∈ prog.ancestors m) (outward : WellScoped prog s) :
    Denotes (acts ++ [⟨q, lexical, links⟩]) acts.length s addr := by
  induction denotes with
  | plain encloses there own =>
    rename_i id owner b outer
    have around : outer.proc ∈ prog.ancestors m := own ▸ above
    obtain ⟨c, middle, toC, atC, isM, onward⟩ :=
      enclosing_through all encloses here there below around
    unfold LexicalParent at belongs
    rw [up] at belongs
    rcases belongs with ⟨d, atD, rfl, toD, thereD, isM'⟩ | ⟨_, absent⟩
    · obtain rfl := enclosing_unique all toC toD atC thereD (isM.trans isM'.symm)
      refine .plain (Relation.ReflTransGen.head ?_ (enclosing_more _ onward))
        (here_more _ there) own
      simp
    · exact absurd isM (absent c middle toC atC)
  | ofStatic id owner => exact .ofStatic id owner
  | controlled id owner => exact .controlled id owner
  | bareBased id owner => exact .bareBased id owner
  | based id owner _ ih => exact .based id owner (ih (ancestor_trans above outward.1) outward.2)
  | defined id owner _ ih =>
    exact .defined id owner (ih (ancestor_trans above outward.1) outward.2)

end Chains

section Results
variable {prog : Program} {acts : List Activation}

theorem proc_generated (compiled : Compiled prog) {p : Nat}
    (procedure : p < prog.procs.length ∧ prog.isPackage p = false) : procOk prog p = true := by
  have all := List.all_eq_true.mp compiled.generated p (List.mem_range.mpr procedure.1)
  simpa [procedure.2] using all

theorem passed_denotes (compiled : Compiled prog) {a q entry : Nat} {act : Activation}
    (here : acts[a]? = some act) (linked : Linked prog acts a act)
    (site : (q, entry) ∈ prog.calls act.proc) {s : Symbol} {addr : Addr}
    (member : (s, addr) ∈ (prog.computeEnv q).zip (appendStaticLinks prog act a q)) :
    s ∈ prog.computeEnv q ∧ Denotes acts a s addr := by
  rw [appendStaticLinks, ← List.map_prod_left_eq_zip, List.mem_map] at member
  obtain ⟨t, inside, pair⟩ := member
  obtain ⟨rfl, rfl⟩ := Prod.mk.inj pair
  have ok := proc_generated compiled linked.procedure
  simp only [procOk, Bool.and_eq_true, List.all_eq_true] at ok
  have passed := (ok.2 (q, entry) site t inside).2
  refine ⟨inside, ?_⟩
  cases reached : addressable prog act.proc t with
  | true =>
    obtain ⟨addr, used, denotes⟩ := addressOf_denotes here linked t reached
    rw [used]
    exact denotes
  | false =>
    cases t with
    | bareBased id owner =>
      have absent : Symbol.bareBased id owner ∉ prog.computeEnv act.proc := by
        simpa [addressable] using reached
      rw [addressOf, linkOf_none absent]
      exact .bareBased id owner
    | plain id owner | ofStatic id owner | controlled id owner | based id owner base
    | defined id owner base => simp [reached, Symbol.isBare] at passed

theorem isPackage_proc {q : Nat} {info : ProcInfo} (found : prog.procs[q]? = some info) :
    q < prog.procs.length := (List.getElem?_eq_some_iff.mp found).1

theorem step_linked (compiled : Compiled prog) {acts' : List Activation}
    (all : AllLinked prog acts) (step : Step prog acts acts') : AllLinked prog acts' := by
  cases step with
  | outside entry given found procedure top =>
    have noLinks := env_top compiled top
    refine allLinked_more all (linked_alone ⟨isPackage_proc found, procedure⟩ noLinks ?_ ?_)
    · rw [noLinks]
      exact receivedLinks_eq _ entry given []
    · intro b absent
      cases absent
  | value entry given found procedure noLinks belongs =>
    refine allLinked_more all (linked_alone ⟨isPackage_proc found, procedure⟩ noLinks ?_ belongs)
    show receivedLinks _ _ _ (prog.computeEnv _).length _ = _
    rw [noLinks]
    exact receivedLinks_eq _ entry given []
  | call given here site found belongs =>
    rename_i a q entry act info lexical
    have linked := all a act here
    have callee := compiled.callees _ _ site
    have count : (appendStaticLinks prog act a q).length = (prog.computeEnv q).length := by
      simp [appendStaticLinks]
    have received := receivedLinks_eq info entry given (appendStaticLinks prog act a q)
    rw [count] at received
    rw [received]
    refine allLinked_more all ⟨callee, count, ?_, ?_⟩
    · intro s addr member
      obtain ⟨inside, denotes⟩ := passed_denotes compiled here linked site member
      have outside := env_outside compiled q s inside
      cases up : prog.parent q with
      | none =>
        have none := env_top compiled (q := q) fun m parent => by rw [up] at parent; cases parent
        rw [none] at inside
        cases inside
      | some m =>
        have above := outside.above
        rw [ancestors_parent up] at above
        rcases List.mem_cons.mp above with own | above
        · exact absurd own outside.other
        · exact denotes_callee all here up (compiled.visible _ _ site m up) belongs _ denotes
            above outside.basesOutward
    · intro b lexical
      unfold LexicalParent at belongs
      cases up : prog.parent q with
      | none =>
        rw [up] at belongs
        rw [belongs] at lexical
        cases lexical
      | some m =>
        rw [up] at belongs
        rcases belongs with ⟨d, atD, isD, _, thereD, isM⟩ | ⟨none, _⟩
        · rw [isD] at lexical
          obtain rfl := Option.some.inj lexical
          exact ⟨(List.getElem?_eq_some_iff.mp thereD).1, atD, here_more _ thereD,
            by rw [isM]⟩
        · rw [none] at lexical
          cases lexical

theorem reachable_linked (compiled : Compiled prog) (run : Reachable prog acts) :
    AllLinked prog acts := by
  induction run with
  | refl =>
    intro a act here
    cases here
  | tail _ step ih => exact step_linked compiled ih step

/-- In every run, an activation addresses the variables of the enclosing procedures in the
    activations it belongs to, and a call passes one link for each variable in its callee's list,
    in the order in which the callee binds them. -/
theorem enclosing_variables_right (compiled : Compiled prog) (run : Reachable prog acts)
    {a : Nat} {act : Activation} (here : acts[a]? = some act) :
    (∀ s ∈ prog.addressed act.proc, ∃ addr, addressOf prog act a s = some addr ∧
      Denotes acts a s addr ∧ ∀ other, Denotes acts a s other → other = addr) ∧
    ∀ q entry, (q, entry) ∈ prog.calls act.proc → ∀ info given,
      (appendStaticLinks prog act a q).length = (prog.computeEnv q).length ∧
      receivedLinks info entry given (prog.computeEnv q).length
        (appendStaticLinks prog act a q) = appendStaticLinks prog act a q ∧
      ∀ s addr, (s, addr) ∈ (prog.computeEnv q).zip (appendStaticLinks prog act a q) →
        Denotes acts a s addr := by
  have all := reachable_linked compiled run
  have linked := all a act here
  refine ⟨fun s used => ?_, fun q entry site info given => ?_⟩
  · have ok := proc_generated compiled linked.procedure
    simp only [procOk, Bool.and_eq_true, List.all_eq_true] at ok
    obtain ⟨addr, found, denotes⟩ := addressOf_denotes here linked s (ok.1 s used)
    exact ⟨addr, found, denotes, fun other second => denotes_unique all second denotes⟩
  · have count : (appendStaticLinks prog act a q).length = (prog.computeEnv q).length := by
      simp [appendStaticLinks]
    have received := receivedLinks_eq info entry given (appendStaticLinks prog act a q)
    rw [count] at received
    exact ⟨count, received, fun s addr member =>
      (passed_denotes compiled here linked site member).2⟩

/-- A variable of an outer procedure used two levels further in, where the procedure between
    is called again. -/
def threeLevels : Program where
  procs :=
    [⟨none, false, [], [.plain 0 0], ⟨[], false⟩, [], [(1, 0)]⟩,
     ⟨some 0, false, [], [], ⟨[], false⟩, [], [(2, 0)]⟩,
     ⟨some 1, false, [.plain 0 0], [.plain 0 0], ⟨[], false⟩, [⟨[], false⟩], [(1, 0), (2, 1)]⟩]
  earlier p r up := by
    rcases p with _ | _ | _ | p
    · cases up
    · obtain rfl := Option.some.inj up
      decide
    · obtain rfl := Option.some.inj up
      decide
    · cases up
  packages p info found flag := by
    rcases p with _ | _ | _ | p
    · cases found
      rfl
    · cases found
      cases flag
    · cases found
      cases flag
    · cases found

theorem threeLevels_compiled : Compiled threeLevels where
  basesOutward p s used := by
    rcases p with _ | _ | _ | p
    · cases used
    · cases used
    · obtain rfl := List.mem_singleton.mp used
      trivial
    · cases used
  visible p call site m up := by
    have sites : ∀ p < 3, ∀ call ∈ threeLevels.calls p, ∀ m,
        threeLevels.parent call.1 = some m → m ∈ threeLevels.ancestors p := by
      intro p inRange call site m up
      have finite : ∀ p < 3, ∀ call ∈ threeLevels.calls p,
          (threeLevels.parent call.1).all (· ∈ threeLevels.ancestors p) = true := by
        decide +kernel
      have found := finite p inRange call site
      rw [up] at found
      simpa using found
    rcases Nat.lt_or_ge p 3 with inRange | beyond
    · exact sites p inRange call site m up
    · have absent : threeLevels.calls p = [] := by
        have none : threeLevels.procs[p]? = none := List.getElem?_eq_none beyond
        simp [calls, none]
      rw [absent] at site
      cases site
  callees p call site := by
    have finite : ∀ p < 3, ∀ call ∈ threeLevels.calls p,
        call.1 < threeLevels.procs.length ∧ threeLevels.isPackage call.1 = false := by
      decide +kernel
    rcases Nat.lt_or_ge p 3 with inRange | beyond
    · exact finite p inRange call site
    · have absent : threeLevels.calls p = [] := by
        have none : threeLevels.procs[p]? = none := List.getElem?_eq_none beyond
        simp [calls, none]
      rw [absent] at site
      cases site
  generated := by decide +kernel

/-- The outer procedure entered, the one in it called, the one in that called, which calls the
    middle one again. -/
def fourActs : List Activation :=
  [⟨0, none, []⟩, ⟨1, some 0, [.frame 0 (.plain 0 0)]⟩, ⟨2, some 1, [.frame 0 (.plain 0 0)]⟩,
   ⟨1, some 0, [.frame 0 (.plain 0 0)]⟩]

theorem fourActs_reachable : Reachable threeLevels fourActs := by
  have first : Step threeLevels [] (fourActs.take 1) := by
    have step := @Step.outside threeLevels [] 0 _ 0 0 rfl rfl fun m up => by
      have top : threeLevels.parent 0 = none := rfl
      rw [top] at up
      cases up
    convert step using 1
    decide +kernel
  have second : Step threeLevels (fourActs.take 1) (fourActs.take 2) := by
    have step := @Step.call threeLevels (fourActs.take 1) 0 1 0 _ _ (some 0) 0 rfl
      (by decide +kernel) rfl
      (Or.inl ⟨0, _, rfl, Relation.ReflTransGen.refl, rfl, rfl⟩)
    convert step using 1
    decide +kernel
  have third : Step threeLevels (fourActs.take 2) (fourActs.take 3) := by
    have step := @Step.call threeLevels (fourActs.take 2) 1 2 0 _ _ (some 1) 0 rfl
      (by decide +kernel) rfl
      (Or.inl ⟨1, _, rfl, Relation.ReflTransGen.refl, rfl, rfl⟩)
    convert step using 1
    decide +kernel
  have fourth : Step threeLevels (fourActs.take 3) fourActs := by
    have step := @Step.call threeLevels (fourActs.take 3) 2 1 0 _ _ (some 0) 0 rfl
      (by decide +kernel) rfl
      (Or.inl ⟨0, _, rfl, .tail (.tail .refl rfl) rfl, rfl, rfl⟩)
    convert step using 1
    decide +kernel
  exact (((Relation.ReflTransGen.single first).tail second).tail third).tail fourth

theorem enclosing_variables_three_levels :
    addressOf threeLevels ⟨2, some 1, [.frame 0 (.plain 0 0)]⟩ 2 (.plain 0 0) =
        some (.frame 0 (.plain 0 0)) ∧
      Denotes fourActs 2 (.plain 0 0) (.frame 0 (.plain 0 0)) := by
  have found : addressOf threeLevels ⟨2, some 1, [.frame 0 (.plain 0 0)]⟩ 2 (.plain 0 0) =
      some (.frame 0 (.plain 0 0)) := by decide +kernel
  obtain ⟨addr, used, denotes, _⟩ :=
    (enclosing_variables_right threeLevels_compiled fourActs_reachable (a := 2) rfl).1
      (.plain 0 0) (by decide +kernel)
  rw [found] at used
  obtain rfl := Option.some.inj used
  exact ⟨found, denotes⟩

end Results

end PliStaticLinks

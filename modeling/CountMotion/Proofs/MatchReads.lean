import CountMotion.Proofs.FlatReads
import CountMotion.Proofs.Search

/-! The search for places of merged operations by the numbers of the nodes. The searches that run
agree. -/
namespace CountMotion.Flat

variable {f : Flat} {root : Var} {members : List Point} {n start join : Nat} {b : BlockId} {p : Point}

def ownNode? (f : Flat) (b : BlockId) : Option (Nat × Block) := do
  let n ← f.nodeOf b
  let (_, code) ← f.block? n
  if f.reached n then some (n, code) else none

theorem ownNode_eq (h : f.Indexed) (b : BlockId) : f.ownNode b = .ok (f.ownNode? b) := by
  rw [ownNode, ownNode?]
  cases hn : f.nodeOf b with
  | none => rfl
  | some n =>
    obtain ⟨x, hx, hs⟩ := node_eq (h.located b n hn)
    simp only [Option.bind_some, hs.block?, hx, bind, Except.bind]
    cases x.block? <;> rfl

def meetRetain (f : Flat) (root : Var) (members : List Point) (n : Nat) : Meeting :=
  let met : Meeting :=
    match f.block? n with
    | some (id, code) =>
      scan (fun i => members.contains ⟨id, i⟩) (fun i => !(f.facts.effectAt root code i).harmless)
        (List.range (code.body.length + 1))
    | none => if (f.effects root n).all fun (_, e) => e == .use then .clear else .barred
  match met with
  | .clear =>
    if (f.succs n).isEmpty && f.traps n && !f.liveEscape root n then .dead
    else if f.continues root n then .clear
    else .barred
  | m => m

def meetRelease (f : Flat) (members : List Point) (n : Nat) : Meeting :=
  match f.block? n with
  | some (id, code) =>
    match scan (fun i => members.contains ⟨id, i⟩) (fun i => !silentAt code i)
      (List.range (code.body.length + 1)).reverse with
    | .clear => if f.blindEntry n || (f.preds n).isEmpty then .barred else .clear
    | m => m
  | none => .barred

def passes (f : Flat) (root : Var) (after : Nat → Bool) (n : Nat) : Bool :=
  match f.block? n with
  | some (_, code) =>
    ((List.range (code.body.length + 1)).filter after).all (silentAt code) && f.continues root n
  | none => false

section Shows

variable {x : Node}

theorem Shows.meetRetain (h : f.Shows n x) : f.meetRetain root members n = x.meetRetain f root members := by
  rw [Flat.meetRetain, h.block?, h.effects, h.succs, h.traps, h.liveEscape, h.continues]
  rfl

theorem Shows.meetRelease (h : f.Shows n x) : f.meetRelease members n = x.meetRelease f members n := by
  rw [Flat.meetRelease, h.block?, h.blindEntry, h.preds]
  rfl

theorem Shows.passes (h : f.Shows n x) (after : Nat → Bool) : f.passes root after n = x.passes f root after := by
  rw [Flat.passes, h.block?, h.continues]
  rfl

end Shows

def pathsMeet (f : Flat) (root : Var) (members : List Point) (start : Nat) : Bool :=
  let next (n : Nat) : List Nat := if f.meetRetain root members n = .clear then f.succs n else []
  f.continues root start &&
    (explore (List.range f.size) next (f.succs start) []).all fun n => f.meetRetain root members n != .barred

def leadsOn (f : Flat) (members : List Point) (p : Point) : Bool :=
  members.any (fun q => q.block == p.block && p.index < q.index) ||
    match f.nodeOf p.block with
    | some n => (explore (List.range f.size) f.succs (f.succs n) []).any fun m =>
        match f.block? m with
        | some (id, _) => members.any fun q => q.block == id
        | none => false
    | none => false

def reachJoin (f : Flat) (root : Var) (members : List Point) (join : Nat) : Bool :=
  let next (n : Nat) : List Nat := if n != join && f.passes root (fun _ => true) n then f.succs n else []
  let starts := members.flatMap fun p => (f.nodeOf p.block).elim [] f.succs
  members.all (fun p => (f.nodeOf p.block).elim false (f.passes root (p.index < ·))) &&
    (explore (List.range f.size) next starts []).all fun n => n == join || f.passes root (fun _ => true) n

def followMembers (f : Flat) (members : List Point) (join : Nat) : Bool :=
  let next (n : Nat) : List Nat := if f.meetRelease members n = .clear then f.preds n else []
  !f.blindEntry join && !(f.preds join).isEmpty &&
    (explore (List.range f.size) next (f.preds join) []).all fun n => f.meetRelease members n != .barred

theorem lt_of_mem_explore {next : Nat → List Nat} {pending : List Nat}
    (hn : n ∈ explore (List.range f.size) next pending []) : n < f.size :=
  explore_induct (p := (· < f.size)) (fun _ ha => absurd ha List.not_mem_nil) (fun _ _ ha => List.mem_range.mp ha)
    (fun _ _ _ _ _ ha => List.mem_range.mp ha) n hn

private theorem lt_of_mem_ite {q : Prop} [Decidable q] {l : List Nat} (h : ∀ m ∈ l, m < f.size) :
    ∀ m ∈ if q then l else [], m < f.size := by
  intro m hm
  split at hm
  · exact h m hm
  · cases hm

private theorem search_all (next : Nat → Node → List Nat) (plain : Nat → List Nat) (test : Nat → Node → Bool)
    (plainTest : Nat → Bool) (pending : List Nat) (hnext : ∀ n x, f.Shows n x → plain n = next n x)
    (htest : ∀ n x, f.Shows n x → test n x = plainTest n) (hin : ∀ n, ∀ m ∈ plain n, m < f.size)
    (hp : ∀ n ∈ pending, n < f.size) :
    (do (← search f.nodes next pending []).allM fun n => do return test n (← f.node n)) =
      .ok ((explore (List.range f.size) plain pending []).all plainTest) := by
  refine bind_eq_ok.mpr ⟨_, search_eq_explore (fun n x hx => hnext n x (shows hx)) hin hp, allM_total fun n hn => ?_⟩
  obtain ⟨x, hx, hs⟩ := node_eq (lt_of_mem_explore hn)
  exact bind_eq_ok.mpr ⟨x, hx, congrArg Except.ok (htest n x hs)⟩

theorem everyPathMeets_eq (h : f.Indexed) (hs : start < f.size) :
    f.everyPathMeets root members start = .ok (f.pathsMeet root members start) := by
  obtain ⟨first, hfirst, hshow⟩ := node_eq hs
  have hall := search_all (f := f)
    (fun _ x => if x.meetRetain f root members = .clear then x.succs else [])
    (fun n => if f.meetRetain root members n = .clear then f.succs n else [])
    (fun _ x => x.meetRetain f root members != .barred)
    (fun n => f.meetRetain root members n != .barred) (f.succs start)
    (fun n x hx => by rw [hx.meetRetain, hx.succs]) (fun n x hx => by rw [hx.meetRetain])
    (fun n => lt_of_mem_ite (h.succs n)) (h.succs start)
  rw [everyPathMeets, pathsMeet, hfirst]
  simp only [bind, Except.bind, ← hshow.continues]
  cases f.continues root start with
  | false => rfl
  | true => exact hshow.succs ▸ hall

theorem leadsToMember_eq (h : f.Indexed) : f.leadsToMember members p = .ok (f.leadsOn members p) := by
  rw [leadsToMember, leadsOn]
  cases members.any fun q => q.block == p.block && p.index < q.index with
  | true => rfl
  | false =>
    cases hn : f.nodeOf p.block with
    | none => rfl
    | some n =>
      obtain ⟨x, hx, hs⟩ := node_eq (h.located _ n hn)
      refine bind_eq_ok.mpr ⟨x, hx, bind_eq_ok.mpr ⟨_, search_eq_explore (fun m y hy => (shows hy).succs)
        h.succs (hs.succs ▸ h.succs n), ?_⟩⟩
      rw [← hs.succs, Bool.false_or]
      refine anyM_total fun m hm => ?_
      obtain ⟨y, hy, hshow⟩ := node_eq (lt_of_mem_explore hm)
      rw [hy, hshow.block?]
      rfl

private def sinkNodes (f : Flat) (root : Var) (p : Point) : Option (List Nat) :=
  (f.nodeOf p.block).bind fun n => if f.passes root (p.index < ·) n then some (f.succs n) else none

private theorem sinksTo_eq (h : f.Indexed) (root : Var) (p : Point) : f.sinksTo root p = .ok (f.sinkNodes root p) := by
  rw [sinksTo, sinkNodes]
  cases hn : f.nodeOf p.block with
  | none => rfl
  | some n =>
    obtain ⟨x, hx, hs⟩ := node_eq (h.located _ n hn)
    refine bind_eq_ok.mpr ⟨x, hx, ?_⟩
    rw [Option.bind_some, hs.passes, hs.succs]
    rfl

private theorem isNone_sinkNodes :
    (f.sinkNodes root p).isNone = !(f.nodeOf p.block).elim false (f.passes root (p.index < ·)) := by
  rw [sinkNodes]
  cases f.nodeOf p.block with
  | none => rfl
  | some n => cases hp : f.passes root (p.index < ·) n <;> simp [hp]

private theorem sinkNodes_of_passes (h : (f.nodeOf p.block).elim false (f.passes root (p.index < ·)) = true) :
    f.sinkNodes root p = some ((f.nodeOf p.block).elim [] f.succs) := by
  rw [sinkNodes]
  cases hn : f.nodeOf p.block with
  | none => rw [hn] at h; cases h
  | some n =>
    rw [hn] at h
    exact if_pos h

theorem membersReachJoin_eq (h : f.Indexed) :
    f.membersReachJoin root members join = .ok (f.reachJoin root members join) := by
  have hnone : (members.map (f.sinkNodes root)).any Option.isNone =
      !members.all fun p => (f.nodeOf p.block).elim false (f.passes root (p.index < ·)) := by
    rw [List.any_map, List.not_all_eq_any_not]
    congr 1
    funext p
    exact isNone_sinkNodes
  rw [membersReachJoin, mapM_total fun p _ => sinksTo_eq h root p, reachJoin]
  simp only [bind, Except.bind, hnone]
  cases hall : members.all fun p => (f.nodeOf p.block).elim false (f.passes root (p.index < ·)) with
  | false => rfl
  | true =>
    have hstarts : ((members.map (f.sinkNodes root)).filterMap id).flatten =
        members.flatMap fun p => (f.nodeOf p.block).elim [] f.succs := by
      rw [List.filterMap_map, List.flatMap, ← List.filterMap_eq_map]
      congr 1
      exact List.filterMap_congr fun p hp => sinkNodes_of_passes (List.all_eq_true.mp hall p hp)
    have hin : ∀ n ∈ members.flatMap fun p => (f.nodeOf p.block).elim [] f.succs, n < f.size := by
      intro n hn
      obtain ⟨p, -, hn⟩ := List.mem_flatMap.mp hn
      cases hp : f.nodeOf p.block with
      | none => rw [hp] at hn; cases hn
      | some m => exact h.succs m n (by rwa [hp] at hn)
    have hsearch := search_all (f := f)
      (fun n x => if n != join && x.passes f root fun _ => true then x.succs else [])
      (fun n => if n != join && f.passes root (fun _ => true) n then f.succs n else [])
      (fun n x => n == join || x.passes f root fun _ => true)
      (fun n => n == join || f.passes root (fun _ => true) n) _
      (fun n x hx => by rw [hx.passes, hx.succs]) (fun n x hx => by rw [hx.passes])
      (fun n => lt_of_mem_ite (h.succs n)) hin
    rw [Bool.true_and, ← hsearch, ← hstarts]
    rfl

theorem joinFollowsMembers_eq (h : f.Indexed) (hj : join < f.size) :
    f.joinFollowsMembers members join = .ok (f.followMembers members join) := by
  obtain ⟨last, hlast, hshow⟩ := node_eq hj
  have hall := search_all (f := f)
    (fun n x => if x.meetRelease f members n = .clear then x.preds else [])
    (fun n => if f.meetRelease members n = .clear then f.preds n else [])
    (fun n x => x.meetRelease f members n != .barred)
    (fun n => f.meetRelease members n != .barred) (f.preds join)
    (fun n x hx => by rw [hx.meetRelease, hx.preds]) (fun n x hx => by rw [hx.meetRelease])
    (fun n => lt_of_mem_ite (h.preds n)) (h.preds join)
  rw [joinFollowsMembers, followMembers, hlast]
  simp only [bind, Except.bind, ← hshow.blindEntry, ← hshow.preds]
  cases f.blindEntry join with
  | true => rfl
  | false =>
    cases (f.preds join).isEmpty with
    | true => rfl
    | false => exact hall

end CountMotion.Flat

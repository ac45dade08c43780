import CountMotion.Facts

/-! What an operation does to the count of one root. -/
namespace CountMotion

/-- Retain and release are of the root itself; `observe` reads a count that may be the
root's, and `mayRelease` may release something that overlaps it. -/
inductive Effect where
  | retain
  | release
  | observe
  | mayRelease
  | use
  | nothing
  deriving DecidableEq, Repr

/-- No count operation on the root may cross such an effect. -/
def Effect.interferes : Effect → Bool
  | observe | mayRelease => true
  | retain | release | use | nothing => false

/-- Harmless effects neither change nor read the count. -/
def Effect.harmless : Effect → Bool
  | use | nothing => true
  | retain | release | observe | mayRelease => false

/-- Instructions that a release may sink past. -/
def Instr.silent : Instr → Bool
  | assign _ _ | cast _ _ | project _ _ _ | construct _ _ => true
  | call _ _ _ _ | isShared _ _ | retain _ _ | release _ _ => false

def Terminator.silent (t : Terminator) : Bool := !t.leaves

namespace Facts

def useIf (hit : Bool) : Effect := if hit then .use else .nothing

/-- The effect of an instruction on a root. -/
def effect (k : Facts) (root : Var) : Instr → Effect
  | .retain v _ => if k.root v = some root then .retain else useIf (k.mayAlias v root)
  | .release v _ =>
    if k.root v = some root then .release
    else if k.mayAlias v root then .mayRelease else .nothing
  | .isShared _ v => if k.mayAlias v root then .observe else .nothing
  | .call _ _ _ .mayRelease => .mayRelease
  | .call _ _ args .readOnly | .construct _ args => useIf (args.any fun v => k.mayAlias v root)
  | .assign _ _ | .cast _ _ | .project _ _ _ => .nothing

/-- The effect of a terminator on a root. -/
def termEffect (k : Facts) (root : Var) : Terminator → Effect
  | .ret v => useIf (k.mayAlias v root)
  | .jump _ | .branch _ _ _ | .switch _ _ _ | .trap => .nothing

/-- The effect at a position of a block, the terminator's past the body. -/
def effectAt (k : Facts) (root : Var) (b : Block) (index : Nat) : Effect :=
  match b.body[index]? with
  | some i => k.effect root i
  | none => k.termEffect root b.term

/-- The positions of a block with an effect on the root, in order. -/
def blockEffects (k : Facts) (root : Var) (id : BlockId) (b : Block) : List (Point × Effect) :=
  ((List.range (b.body.length + 1)).map fun index => (⟨id, index⟩, k.effectAt root b index)).filter
    fun (_, e) => e != .nothing

/-- Every path from the exit traps, and no instruction on the way does more than use the
root: the count of the root no longer matters there. -/
def quietExit (k : Facts) (r : Routine) (root : Var) (exit : BlockId) : Bool :=
  let all := List.range r.blocks.length
  let targets (b : BlockId) : List BlockId := (r.blocks[b]?.map fun x => x.term.targets).getD []
  let quiet (b : BlockId) : Bool :=
    match r.blocks[b]? with
    | some x => x.body.all (fun i => (k.effect root i).harmless) &&
        x.term.targets.all fun t => t < r.blocks.length
    | none => false
  k.traps exit && exit < r.blocks.length && (explore all targets [exit] []).all quiet

/-- The root's variable has its value before the point. Inside the block of its origin, the
current body decides, since count operations may have moved the origin. -/
def definedBefore (k : Facts) (r : Routine) (root : Var) (p : Point) : Except Fault Bool :=
  match k.identity.origin root with
  | none => .ok false
  | some .param => .ok true
  | some (.instr site) =>
    if site.block = p.block then do
      let b ← r.block p.block
      if p.index ≤ b.body.length then
        return (b.body.take p.index).any fun i => i.target? == some root
      else throw (.pastBody p)
    else .ok (k.dom.dominates site.block p.block)

end Facts

end CountMotion

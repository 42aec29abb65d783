import Kmdx.Lib.Monitor
import Kmdx.Script

/-!
# Watching a run

What a monitor watches for, it does not change: a run that it does not stop is the run of the program
(`Script.run_follows`, `State.executeTransaction_follows`).
-/

namespace Kmdx

open Monitor

variable {H : Type} [Digest H]

namespace Context

/-- The program: nothing is watched for. -/
def program (c : Context H) : Context H := { c with monitor := fun _ => false }

def watching (c : Context H) (m : Watch → Bool) : Context H := { c with monitor := m }

variable (c : Context H) (m : Watch → Bool)

omit [Digest H] in
@[simp] theorem watching_sealEngine : (c.watching m).sealEngine = c.sealEngine := rfl

omit [Digest H] in
@[simp] theorem watching_number : (c.watching m).number = c.number := rfl

omit [Digest H] in
@[simp] theorem watching_schedule : (c.watching m).schedule = c.schedule := rfl

omit [Digest H] in
@[simp] theorem program_sealEngine : c.program.sealEngine = c.sealEngine := rfl

omit [Digest H] in
@[simp] theorem program_number : c.program.number = c.number := rfl

omit [Digest H] in
@[simp] theorem program_schedule : c.program.schedule = c.schedule := rfl

omit [Digest H] in
theorem stopIf_follows (w : Watch) (b : Bool) :
    Follows Exn.monitor ((c.watching m).stopIf w b) (c.program.stopIf w b) := by
  have : c.program.stopIf w b = (return : StateM H Unit) := rfl
  rw [this]
  exact .guard

omit [Digest H] in
theorem sub_follows (x y : U256) : Follows Exn.monitor ((c.watching m).sub x y) (c.program.sub x y) :=
  (c.stopIf_follows m _ _).bind fun _ => .refl _

omit [Digest H] in
theorem add_follows (x y : U256) : Follows Exn.monitor ((c.watching m).add x y) (c.program.add x y) :=
  (c.stopIf_follows m _ _).bind fun _ => .refl _

omit [Digest H] in
theorem mul_follows (x y : U256) : Follows Exn.monitor ((c.watching m).mul x y) (c.program.mul x y) :=
  (c.stopIf_follows m _ _).bind fun _ => .refl _

theorem addBalance_follows (w : Watch) (a : Address) (x : U256) :
    Follows Exn.monitor ((c.watching m).addBalance w a x) (c.program.addBalance w a x) :=
  .bind_right fun _ => (c.stopIf_follows m _ _).bind fun _ => .refl _

theorem transferBalance_follows (a b : Address) (x : U256) :
    Follows Exn.monitor ((c.watching m).transferBalance a b x) (c.program.transferBalance a b x) :=
  .bind_right fun _ => c.addBalance_follows m _ _ _

theorem clearStorage_follows (a : Address) :
    Follows Exn.monitor ((c.watching m).clearStorage a) (c.program.clearStorage a) :=
  .bind_right fun _ => (c.stopIf_follows m _ _).bind fun _ => .refl _

end Context

namespace Executive

variable (c : Context H) (m : Watch → Bool) (e : Executive H)

theorem callPrecompiled_follows (contract : PrecompiledContract) (p : CallParameters) :
    Follows Exn.monitor (e.callPrecompiled (c.watching m) contract p)
      (e.callPrecompiled c.program contract p) :=
  .ite (.refl _) ((c.sub_follows m _ _).bind fun _ => .refl _)

theorem prepareCall_follows (p : CallParameters) (gasPrice : U256) (origin : Address) :
    Follows Exn.monitor (e.prepareCall (c.watching m) p gasPrice origin)
      (e.prepareCall c.program p gasPrice origin) := by
  simp only [prepareCall, Context.watching_sealEngine, Context.watching_number,
    Context.program_sealEngine, Context.program_number]
  split
  · exact e.callPrecompiled_follows c m _ p
  · exact .refl _

theorem call_follows (p : CallParameters) (gasPrice : U256) (origin : Address) :
    Follows Exn.monitor (e.call (c.watching m) p gasPrice origin) (e.call c.program p gasPrice origin) :=
  .bind_right fun _ => .bind_right fun _ => (prepareCall_follows c m _ p gasPrice origin).bind fun _ =>
    .ite (.refl _) ((c.transferBalance_follows m _ _ _).bind fun _ => .refl _)

theorem executeCreate_follows (sender : Address) (endowment gasPrice gas : U256) (init : Bytes)
    (origin : Address) : Follows Exn.monitor
      (e.executeCreate (c.watching m) sender endowment gasPrice gas init origin)
      (e.executeCreate c.program sender endowment gasPrice gas init origin) :=
  .bind_right fun _ => .bind_right fun _ => .bind_right fun _ => .ite (.refl _)
    ((c.transferBalance_follows m _ _ _).bind fun _ => .refl _)

theorem createOpcode_follows (sender : Address) (endowment gasPrice gas : U256) (init : Bytes)
    (origin : Address) : Follows Exn.monitor
      (e.createOpcode (c.watching m) sender endowment gasPrice gas init origin)
      (e.createOpcode c.program sender endowment gasPrice gas init origin) :=
  .bind_right fun _ => executeCreate_follows c m _ _ _ _ _ _ _

theorem execute_follows :
    Follows Exn.monitor (e.execute (c.watching m)) (e.execute c.program) := by
  refine .bind_right fun _ => .bind_right fun _ => .ite (.refl _) ?_
  refine (c.sub_follows m _ _).bind fun _ => .ite ?_ ?_
  · exact e.createOpcode_follows c m _ _ _ _ _ _
  · exact e.call_follows c m _ _ _

theorem deposit_follows (a : Address) (out : Bytes) :
    Follows Exn.monitor (e.deposit (c.watching m) a out) (e.deposit c.program a out) :=
  .ite (.refl _) (.ite ((c.sub_follows m _ _).bind fun _ => .refl _) (.refl _))

variable {vm vm' : Vm H}

theorem goCreate_follows (hvm : ∀ ext gas, Follows Exn.monitor (vm ext gas) (vm' ext gas)) (ext : ExtVM H) :
    Follows Exn.monitor (e.goCreate (c.watching m) vm ext) (e.goCreate c.program vm' ext) := by
  refine (c.clearStorage_follows m _).bind fun _ => (hvm ext e.gas).bind fun r => ?_
  dsimp only
  cases r.ending with
  | stop out => exact deposit_follows c m _ _ _
  | revert out => exact .refl _
  | vmException x => exact .refl _

theorem goCall_follows (hvm : ∀ ext gas, Follows Exn.monitor (vm ext gas) (vm' ext gas)) (ext : ExtVM H) :
    Follows Exn.monitor (e.goCall vm ext) (e.goCall vm' ext) := by
  refine .bind ?_ fun _ => .refl _
  unfold exec
  split
  · exact .refl _
  · exact hvm ext e.gas

theorem go_follows (hvm : ∀ ext gas, Follows Exn.monitor (vm ext gas) (vm' ext gas)) :
    Follows Exn.monitor (e.go (c.watching m) vm) (e.go c.program vm') := by
  unfold go
  split
  · exact .refl _
  · next ext _ =>
    refine (Follows.tryCatch (h := fun x => throw (uncaught x)) ?_ rfl).bind fun _ => .refl _
    exact .ite (e.goCreate_follows c m hvm ext) (e.goCall_follows hvm ext)

theorem finalize_follows :
    Follows Exn.monitor (e.finalize (c.watching m)) (e.finalize c.program) := by
  refine .bind ?_ fun e => (c.add_follows m _ _).bind fun _ => .bind ?_ fun _ => .refl _
  · unfold refund
    split
    · exact .refl _
    · exact (c.sub_follows m _ _).bind fun _ => .refl _
  · exact .ite (.refl _) (.bind_right fun _ => (c.mul_follows m _ _).bind fun _ =>
      (c.addBalance_follows m _ _ _).bind fun _ => (c.sub_follows m _ _).bind fun _ =>
      (c.mul_follows m _ _).bind fun _ => c.addBalance_follows m _ _ _)

end Executive

namespace State

variable (c : Context H) (m : Watch → Bool) {vm vm' : Vm H}

theorem executeTransaction_follows (hvm : ∀ ext gas, Follows Exn.monitor (vm ext gas) (vm' ext gas))
    (e : Executive H) (t : Transaction) :
    Follows Exn.monitor (executeTransaction (c.watching m) vm e t)
      (executeTransaction c.program vm' e t) :=
  .bind_right fun e => (e.execute_follows c m).bind fun r =>
    .bind (.ite (.refl _) (r.2.go_follows c m hvm)) fun e => e.finalize_follows c m

theorem execute_follows (hvm : ∀ ext gas, Follows Exn.monitor (vm ext gas) (vm' ext gas))
    (t : Transaction) (p : Permanence) :
    Follows Exn.monitor (execute (c.watching m) vm t p) (execute c.program vm' t p) :=
  (executeTransaction_follows c m hvm _ t).bind fun _ => .bind (by cases p <;> exact .refl _) fun _ => .refl _

end State

namespace ExtVM

variable (c : Context H) (m : Watch → Bool) (ext : ExtVM H) {vm vm' : Vm H}

theorem suicide_follows (a : Address) :
    Follows Exn.monitor (ext.suicide (c.watching m) a) (ext.suicide c.program a) :=
  .bind_right fun _ => (c.addBalance_follows m _ _ _).bind fun _ => .refl _

theorem goAndAccrue_follows (hvm : ∀ ext gas, Follows Exn.monitor (vm ext gas) (vm' ext gas))
    (done : Bool) (e : Executive H) :
    Follows Exn.monitor (ext.goAndAccrue (c.watching m) vm done e)
      (ext.goAndAccrue c.program vm' done e) :=
  .ite (.refl _) ((e.go_follows c m hvm).bind fun _ => .refl _)

theorem call_follows (hvm : ∀ ext gas, Follows Exn.monitor (vm ext gas) (vm' ext gas))
    (p : CallParameters) :
    Follows Exn.monitor (ext.call (c.watching m) vm p) (ext.call c.program vm' p) :=
  (Executive.call_follows c m _ _ _ _).bind fun _ =>
    (ext.goAndAccrue_follows c m hvm _ _).bind fun _ => .refl _

theorem create_follows (hvm : ∀ ext gas, Follows Exn.monitor (vm ext gas) (vm' ext gas))
    (endowment gas : U256) (code : Bytes) (salt : Option U256) :
    Follows Exn.monitor (ext.create (c.watching m) vm endowment gas code salt)
      (ext.create c.program vm' endowment gas code salt) := by
  refine .bind ?_ fun _ => (ext.goAndAccrue_follows c m hvm _ _).bind fun _ => .refl _
  cases salt with
  | none => exact Executive.createOpcode_follows c m _ _ _ _ _ _ _
  | some salt => exact Executive.executeCreate_follows c m _ _ _ _ _ _ _

theorem blockHash_follows (hvm : ∀ ext gas, Follows Exn.monitor (vm ext gas) (vm' ext gas))
    (number : U256) :
    Follows Exn.monitor (ext.blockHash (c.watching m) vm number) (ext.blockHash c.program vm' number) :=
  .ite (.refl _) (.ite (.refl _) (.bind_right fun _ => (c.stopIf_follows m _ _).bind fun _ =>
    (State.execute_follows c m hvm _ _).bind fun _ => .refl _))

end ExtVM

/-- A script that is watched does what the script does, unless it is stopped. -/
theorem Script.run_follows (c : Context H) (m : Watch → Bool) (script : Script) (ext : ExtVM H)
    (given : U256) :
    Follows Exn.monitor (script.run (c.watching m) ext given) (script.run c.program ext given) := by
  induction script generalizing ext given with
  | stop output gas => exact .refl _
  | revert output gas => exact .refl _
  | vmException x => exact .refl _
  | throw x _ => exact .refl _
  | setStore n v next ih => exact .bind_right fun _ => ih _ _
  | log topics data next ih => exact ih _ _
  | addRefund x next ih => exact ih _ _
  | read q next ih => exact .bind_right fun _ => ih _ _
  | suicide a next ih => exact (ext.suicide_follows c m a).bind fun _ => ih _ _
  | call p callee next ihc ih => exact (ext.call_follows c m ihc p).bind fun _ => ih _ _
  | create endowment gas code salt callee next ihc ih =>
    exact (ext.create_follows c m ihc endowment gas code salt).bind fun _ => ih _ _
  | blockHash number callee next ihc ih => exact (ext.blockHash_follows c m ihc number).bind fun _ => ih _ _

end Kmdx

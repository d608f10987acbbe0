import BitcoinNode.Blockchain.Chain
import BitcoinNode.Library.System

/-!
# Runs of the chain

The calls a node makes on its chain, and the states that any sequence of calls reaches.
A call that panics ends the run. `attach` is called with a stored entry, and deployment
queries are about a stored entry and a deployment of the network.
-/

namespace BitcoinNode

/-- A call on the chain; `now` is the clock reading of the call. -/
inductive Call where
  | addHeader (now : Nat) (header : BlockHeader)
  | add (now : Nat) (block : Block)
  | attach (entry : ChainEntry)
  | status (prev : Option ChainEntry) (deployment : Deployment)

namespace Chain

/-- The result of a call with its value dropped. -/
def discard {ε α : Type} (result : Except Panic (Returned ε α)) (f : ε → BlockVerificationError) :
    Except Panic (Returned BlockVerificationError Unit) :=
  match result with
  | .error p => .error p
  | .ok (c, .ok _) => .ok (c, .ok ())
  | .ok (c, .error e) => .ok (c, .error (f e))

def step (env : Env) (c : Chain) : Call → Except Panic (Returned BlockVerificationError Unit)
  | .addHeader now header => discard (c.addHeader env now header) .badHeader
  | .add now block => discard (c.add env now block) id
  | .attach entry => c.attach env entry
  | .status prev deployment => do
    let (cache, _) ← c.db.getDeploymentStatus env prev deployment
    return (c.withCache cache, .ok ())

/-- What the callers of `attach` and `get_deployment_status` promise. -/
def Permitted (env : Env) (c : Chain) : Call → Prop
  | .addHeader _ _ => True
  | .add _ _ => True
  | .attach entry => c.db.getEntryByHash entry.hash = some entry
  | .status prev deployment =>
    (∀ entry ∈ prev, c.db.getEntryByHash entry.hash = some entry)
      ∧ deployment ∈ env.network.deployments

/-- The states of a node that started on a fresh database. -/
inductive Reachable (env : Env) : Chain → Prop where
  | new {c : Chain} : Chain.new env = .ok c → Reachable env c
  | step {c c' : Chain} {call : Call} {result : Except BlockVerificationError Unit} :
      Reachable env c → c.Permitted env call → c.step env call = .ok (c', result) →
      Reachable env c'

end Chain

end BitcoinNode

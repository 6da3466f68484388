import BlunMq.Raft.Replica

/-!
# The nodes group's state-machine store

The directory of node ids and addresses, under the same store as the queue
state. Its serialised payload is the map itself.
-/

namespace BlunMq

structure NodeDirectory where
  nodes : Map UInt64 String
  deriving DecidableEq

namespace NodeDirectory

def default : NodeDirectory := ⟨∅⟩

def apply (self : NodeDirectory) : NodeCommand → NodeDirectory × NodeResponse
  | .upsertNode id addr => (⟨self.nodes.insert id addr⟩, {})

end NodeDirectory

namespace NodeStateMachineStore

def machine : Machine NodeDirectory NodeCommand NodeResponse (Map UInt64 String) where
  apply := NodeDirectory.apply
  noCommand := {}
  save s := s.nodes
  load nodes := ⟨nodes⟩
  load_save _ := rfl

def apply (w : NodeDirectory × Store) (entries : List (Entry NodeCommand)) :
    (NodeDirectory × Store) × List NodeResponse :=
  Store.apply machine w entries

def buildSnapshot (serde : SerdeJson (Map UInt64 String)) (cell : NodeDirectory) (nanos : ℕ)
    (self : Store) : Store × Snapshot :=
  Store.buildSnapshot machine serde cell nanos self

def installSnapshot (serde : SerdeJson (Map UInt64 String)) (w : NodeDirectory × Store)
    (info : SnapshotMeta) (data : Bytes) : (NodeDirectory × Store) × Outcome Unit Unit :=
  Store.installSnapshot machine serde w info data

end NodeStateMachineStore
end BlunMq

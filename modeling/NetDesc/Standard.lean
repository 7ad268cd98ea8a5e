import NetDesc.Standard.Action
import NetDesc.Standard.Function
import NetDesc.Standard.Network

namespace NetDesc

namespace Registry

/-- The types of the language. Networks are known under two names. -/
def standard : Registry where
  types :=
    [("ComputationNode", Node.runtimeType),
      ("ComputationNetwork", Network.runtimeType),
      ("NDLComputationNetwork", Network.runtimeType),
      ("StringFunction", TextFunction.runtimeType),
      ("NumericFunction", NumericFunction.runtimeType),
      ("PrintAction", PrintAction.runtimeType),
      ("FailAction", FailAction.runtimeType)]

end Registry

end NetDesc

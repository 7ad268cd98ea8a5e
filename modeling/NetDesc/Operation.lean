namespace NetDesc

inductive Operation where
  | learnableParameter
  | inputValue
  | plus
  | minus
  | times
  | diagTimes
  | scale
  | log
  | sigmoid
  | mean
  | invStdDev
  | perDimMeanVarNormalization
  | rowSlice
  | crossEntropyWithSoftmax
  | errorPrediction
  | delay
deriving DecidableEq, Inhabited

namespace Operation

def all : List Operation :=
  [learnableParameter, inputValue, plus, minus, times, diagTimes, scale, log, sigmoid, mean,
    invStdDev, perDimMeanVarNormalization, rowSlice, crossEntropyWithSoftmax, errorPrediction,
    delay]

/-- The name under which networks show the operation. -/
def name : Operation → String
  | learnableParameter => "LearnableParameter"
  | inputValue => "InputValue"
  | plus => "Plus"
  | minus => "Minus"
  | times => "Times"
  | diagTimes => "DiagTimes"
  | scale => "Scale"
  | log => "Log"
  | sigmoid => "Sigmoid"
  | mean => "Mean"
  | invStdDev => "InvStdDev"
  | perDimMeanVarNormalization => "PerDimMeanVarNormalization"
  | rowSlice => "RowSlice"
  | crossEntropyWithSoftmax => "CrossEntropyWithSoftmax"
  | errorPrediction => "ErrorPrediction"
  | delay => "Delay"

/-- The class that selects the operation. -/
def className : Operation → String
  | inputValue => "InputValue"
  | op => op.name ++ "Node"

def ofClass? (className : String) : Option Operation :=
  all.find? (·.className == className)

/-- How many inputs a node takes from its field `inputs`. The class of an operation fixes that;
    parameters, inputs of the network and delays do not have that field. -/
def inputCount? : Operation → Option Nat
  | learnableParameter | inputValue | delay => none
  | log | sigmoid | mean | invStdDev | rowSlice => some 1
  | plus | minus | times | diagTimes | scale | crossEntropyWithSoftmax | errorPrediction => some 2
  | perDimMeanVarNormalization => some 3

end Operation

end NetDesc

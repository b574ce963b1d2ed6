import QuantumRegister.Dense.State
import QuantumRegister.Gate.Sampling
import QuantumRegister.Operation.Channel
import QuantumRegister.Proofs.Dense.Algebra
import QuantumRegister.Proofs.Dense.AxisOrder
import QuantumRegister.Proofs.Dense.Born
import QuantumRegister.Proofs.Dense.Contraction
import QuantumRegister.Proofs.Dense.Kraus
import QuantumRegister.Proofs.Dense.Mixture
import QuantumRegister.Proofs.Dense.Product
import QuantumRegister.Proofs.Flattening
import QuantumRegister.Proofs.Gate.Agreement
import QuantumRegister.Proofs.Guard
import QuantumRegister.Proofs.Recorded
import QuantumRegister.Proofs.Register.Collapsed
import QuantumRegister.Proofs.Register.Copies
import QuantumRegister.Proofs.Register.Durable
import QuantumRegister.Proofs.Register.Failure
import QuantumRegister.Proofs.Register.Range
import QuantumRegister.Proofs.Register.Records
import QuantumRegister.Proofs.Register.Relabel
import QuantumRegister.Proofs.Register.Splitting
import QuantumRegister.Proofs.Register.Web
import QuantumRegister.Proofs.Stabilizer.Prepared
import QuantumRegister.Proofs.Validation
import QuantumRegister.Register.Sample
import QuantumRegister.Scalar.Double
import QuantumRegister.Stabilizer.State

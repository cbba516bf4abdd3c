import PureCrypto.Bignum.BoxedModPow
import PureCrypto.Bignum.TrialDivision
import PureCrypto.Chunked.Session
import PureCrypto.Cipher.AezEncryption
import PureCrypto.Der.Oid
import PureCrypto.Dtls.Adversary
import PureCrypto.Dtls.Lossless
import PureCrypto.Ec.CompleteAddition
import PureCrypto.Ec.Curve25519.Scalar
import PureCrypto.Fpe.Permutation
import PureCrypto.Mldsa.Rounding
import PureCrypto.Pki.ChainSoundness
import PureCrypto.Pki.DirectoryName
import PureCrypto.Pki.Hostname
import PureCrypto.Pki.PathLength
import PureCrypto.Pki.PolicyArena
import PureCrypto.Quic.AckCodec
import PureCrypto.Quic.AckPruning
import PureCrypto.Quic.Admission
import PureCrypto.Quic.CidPool
import PureCrypto.Quic.CongestionHistory
import PureCrypto.Quic.EndToEnd
import PureCrypto.Quic.PacketNumber
import PureCrypto.Quic.ReadyQueue
import PureCrypto.Quic.RejectedFrames
import PureCrypto.Quic.ReplayWindows
import PureCrypto.Quic.Replenishment
import PureCrypto.Quic.SendCredit
import PureCrypto.Quic.TerminalStates
import PureCrypto.Rsa.PrivateOperation
import PureCrypto.Tls.Channel
import PureCrypto.Tls.EchCompression
import PureCrypto.Tls.HandshakeIntegrity
import PureCrypto.Xmss.IndexDiscipline
import PureCrypto.Zkp.AdaptorCorrectness
import PureCrypto.Zkp.SurjectionCompleteness
